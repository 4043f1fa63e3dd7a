import Dhtsim.Lemmas.Addresses
import Dhtsim.Lemmas.Contacts
import Dhtsim.Lemmas.Traffic

/-!
# What the nodes of a network know of each other

In a network that is used properly, whatever contact a node holds is another node, by its address and key: it learned of it from
a message, whose originator is who its data says, or from the answer to a lookup, where the node that answered left the one that
asked out. So no node sends a request to itself, and every message is handled by the node it was sent to.
-/

namespace Dhtsim

open CallMachine KademliaNode

variable {N : Nat} {Γ : Ctx} {config : Fin N → Config} {key : Fin N → KademliaKey} {offset : Fin N → Time} {limit : UInt32}
  {ok : NetworkConfig N → NetworkLabel N → Prop} {m m' : NetworkConfig N} {i j : Fin N} {e : BucketEntry} {c : Call}

/-- Some node has this address and this key. -/
def Named (key : Fin N → KademliaKey) (m : NetworkConfig N) (a : UInt32) (k : KademliaKey) : Prop :=
  a ≠ 0 ∧ ∃ j, addressOf m j = a ∧ key j = k

/-- The entry names a node, and not one with the key of node `i`. -/
def Contact (key : Fin N → KademliaKey) (m : NetworkConfig N) (i : Fin N) (e : BucketEntry) : Prop :=
  Named key m e.address e.key ∧ e.key ≠ key i

/-- The address that a call is about to send a request to. -/
def Call.target : Call → Option UInt32
  | .ping a _ => some a
  | .storeAt a _ => some a
  | _ => none

/-- What a call of node `i` carries is right: contacts that are others, an observation of a node, a target that is another, a
message for this node, and a request from this node to another. -/
structure Call.Honest (key : Fin N → KademliaKey) (m : NetworkConfig N) (i : Fin N) (c : Call) : Prop where
  contacts : ∀ e, c.HasContact e → Contact key m i e
  observes : ∀ a k, c = .observe a k → Named key m a k
  targets : ∀ a, c.target = some a → a ≠ addressOf m i
  handles : ∀ msg, c.carries = some msg → (∀ cb mr t, c ≠ .base (.send msg cb mr t)) → msg.destination = addressOf m i
  sends : ∀ msg cb mr t, c = .base (.send msg cb mr t) → msg.tag = 0 →
    msg.originator = addressOf m i ∧ msg.destination ≠ addressOf m i

/-- A request goes from the node that made it to another address. -/
structure SentRequest.Addressed (m : NetworkConfig N) (q : SentRequest N) : Prop where
  address : addressOf m q.requester ≠ 0
  originator : q.message.originator = addressOf m q.requester
  destination : q.message.destination ≠ addressOf m q.requester

/-- What the nodes of a network know is right. -/
structure HonestState (key : Fin N → KademliaKey) (m : NetworkConfig N) : Prop where
  nodes : ∀ i e, (m.state.applications i).HasContact e → Contact key m i e
  queues : ∀ i, ∀ msg ∈ (m.state.applications i).inqueue, addressOf m i ≠ 0 ∧ msg.destination = addressOf m i
  calls : ∀ i c, .app i c ∈ m.stack → c.Honest key m i
  requests : ∀ q ∈ requests m.trace, q.Addressed m

/-- The addresses that nodes have in one configuration they have in another. -/
def Settled (m m' : NetworkConfig N) : Prop := ∀ i, addressOf m i ≠ 0 → addressOf m' i = addressOf m i

theorem Named.mono {a : UInt32} {k : KademliaKey} (h : Named key m a k) (hst : Settled m m') : Named key m' a k := by
  obtain ⟨hne, j, rfl, hk⟩ := h
  exact ⟨hne, j, hst j hne, hk⟩

theorem Contact.mono (h : Contact key m i e) (hst : Settled m m') : Contact key m' i e := ⟨h.1.mono hst, h.2⟩

/-- A contact has another address. -/
theorem Contact.address_ne (h : Contact key m i e) (hI : AddressState m) : e.address ≠ addressOf m i := by
  obtain ⟨⟨hne, j, hj, hk⟩, hkey⟩ := h
  intro heq
  have hij : j = i := hI.unique j i (hj.trans heq) (hj ▸ hne)
  exact hkey (hk.symm.trans (congrArg key hij))

theorem Call.Honest.mono (h : c.Honest key m i) (hst : Settled m m') (hne : addressOf m i ≠ 0) : c.Honest key m' i := by
  have heq := hst i hne
  refine ⟨fun e he => (h.contacts e he).mono hst, fun a k hc => (h.observes a k hc).mono hst, ?_, ?_, ?_⟩
  · rw [heq]
    exact h.targets
  · rw [heq]
    exact h.handles
  · rw [heq]
    exact h.sends

theorem SentRequest.Addressed.mono {q : SentRequest N} (h : q.Addressed m) (hst : Settled m m') : q.Addressed m' := by
  have heq := hst q.requester h.address
  exact ⟨heq ▸ h.address, heq ▸ h.originator, heq ▸ h.destination⟩

namespace HonestyAux

/-- A call that kills a node carries nothing. -/
theorem honest_die : (Call.base .die).Honest key m i := by
  refine ⟨?_, by simp, by simp [Call.target], by simp [Call.carries], by simp⟩
  intro e he
  cases he with
  | newcomer i h => simp [Call.pingFns] at h

/-- What comes in carries no contacts. -/
theorem not_hasContact_of_comesIn (hc : c.comesIn = true) : ¬ c.HasContact e := by
  intro he
  cases he with
  | asks fn hfn h =>
    have hcb := KademliaNode.eq_empty_of_isEmpty hc
    subst hcb
    cases hfn
  | asked h => cases hc
  | listed h => cases hc
  | found h => cases hc
  | newcomer i h =>
    obtain ⟨f, hf⟩ := pingFns_of_isEvent (isEvent_of_comesIn hc) h
    cases hf

/-- What the data of a message says about its sender. -/
structure SentBy (Γ : Ctx) (key : KademliaKey) (msg : Message UInt32) : Prop where
  ping : MessageType.ofCode msg.type = some .ping → (readPing Γ msg).sender = key
  findNodes : MessageType.ofCode msg.type = some .findNodes → ∀ ch, (readFindNodes Γ ch msg).sender = key
  store : MessageType.ofCode msg.type = some .store → ∀ ch, (readStore Γ ch msg).sender = key

theorem sentBy_of_requested (hΓ : Γ.Decodes) {key : KademliaKey} {msg : Message UInt32} (h : Requested Γ key msg) :
    SentBy Γ key msg := by
  cases h with
  | ping htype hdata =>
    refine ⟨fun _ => ?_, fun ht => ?_, fun ht => ?_⟩
    · rw [readPing, hdata, hΓ.ping]
      rfl
    · rw [htype] at ht; cases ht
    · rw [htype] at ht; cases ht
  | find t fv htype hdata =>
    refine ⟨fun ht => ?_, fun _ ch => ?_, fun ht => ?_⟩
    · rw [htype] at ht; cases ht
    · rw [readFindNodes, hdata, hΓ.findNodes]
    · rw [htype] at ht; cases ht
  | store v htype hdata =>
    refine ⟨fun ht => ?_, fun ht => ?_, fun _ ch => ?_⟩
    · rw [htype] at ht; cases ht
    · rw [htype] at ht; cases ht
    · rw [readStore, hdata, hΓ.store]

theorem sender_findNodesReply (n : KademliaNode) (fm : FindNodesMessage) : (n.findNodesReply Γ fm).sender = n.key := by
  unfold findNodesReply
  split <;> rfl

theorem sentBy_of_answers (hΓ : Γ.Decodes) {n : KademliaNode} {req msg : Message UInt32} (hc : c.Reads Γ)
    (h : Answers Γ n c req msg) : SentBy Γ n.key msg := by
  cases h with
  | pong ht hp =>
    refine ⟨fun _ => ?_, fun ht' => ?_, fun ht' => ?_⟩
    · exact congrArg PingMessage.sender (hΓ.ping _ _)
    · cases ht.symm.trans ht'
    · cases ht.symm.trans ht'
  | @found _ fm hr =>
    refine ⟨fun ht' => ?_, fun _ ch => ?_, fun ht' => ?_⟩
    · cases hc.1.symm.trans ht'
    · exact (congrArg FindNodesMessage.sender (hΓ.findNodes _ _)).trans (sender_findNodesReply n fm)
    · cases hc.1.symm.trans ht'
  | stored =>
    refine ⟨fun ht' => ?_, fun ht' => ?_, fun _ ch => ?_⟩
    · cases hc.1.symm.trans ht'
    · cases hc.1.symm.trans ht'
    · exact congrArg StoreMessage.sender (hΓ.store _ _)

/-- The contacts of an answer without a value are those nearest to the target, without the one that asked. -/
theorem nearest_findNodesReply {n : KademliaNode} {fm : FindNodesMessage} (hfm : fm.nearest = [])
    (he : e ∈ (n.findNodesReply Γ fm).nearest) : n.HasContact e ∧ e.key ≠ fm.sender := by
  unfold findNodesReply at he
  split at he
  · rw [show _ = fm.nearest from rfl, hfm] at he
    cases he
  · obtain ⟨⟨i, he⟩, hne⟩ := mem_getNearest he
    exact ⟨.bucket i he, hne⟩

/-- What a node reads from a request to find nodes. -/
theorem readFindNodes_of_requested (hΓ : Γ.Decodes) {key : KademliaKey} {msg : Message UInt32} (h : Requested Γ key msg)
    (ht : MessageType.ofCode msg.type = some .findNodes) (ch : Choice) :
    (readFindNodes Γ ch msg).sender = key ∧ (readFindNodes Γ ch msg).request = true ∧
      (readFindNodes Γ ch msg).nearest = [] := by
  cases h with
  | ping htype hdata => rw [htype] at ht; cases ht
  | find t fv htype hdata =>
    rw [readFindNodes, hdata, hΓ.findNodes]
    exact ⟨rfl, rfl, rfl⟩
  | store v htype hdata => rw [htype] at ht; cases ht

/-! ## Looking back -/

section Back

variable (hok : ∀ m l, ok m l → freshNetworkTags m l = true ∧ properUse m l = true)
include hok

theorem settled_of_run {ok' : NetworkConfig N → NetworkLabel N → Prop} (hok' : ∀ m l, ok' m l → ok m l)
    (h : Run (networkProgram Γ N) ok' (startNetwork config key offset limit) m) (hr : Run (networkProgram Γ N) ok' m m') :
    Settled m m' := fun _ hne => address_of_run (fun m l h => addedOnce_of_properUse (hok m l (hok' m l h)).2) h hr hne

/-- A node that answered a message was the one it was sent to, and still has that address. -/
theorem answeredBy_address (hI : HonestState key m) {req msg : Message UInt32}
    (h : AnsweredBy Γ (fun m l => ok m l ∧ HonestState key m) (startNetwork config key offset limit) m j req msg) :
    addressOf m j ≠ 0 ∧ req.destination = addressOf m j ∧ msg.originator = req.destination := by
  obtain ⟨m₁, c, rest, h₁, h₂, hstack, ha⟩ := h
  have hI₁ : HonestState key m₁ := h₂.holds_at_start hI
  have hmem : .app j c ∈ m₁.stack := hstack ▸ List.mem_cons_self
  have hcarries : c.carries = some req := by cases ha <;> rfl
  have hnot : ∀ cb mr t, c ≠ .base (.send req cb mr t) := by
    rintro cb mr t rfl
    cases ha
  have hdie : c ≠ .base .die := by
    rintro rfl
    cases ha
  have hdest : req.destination = addressOf m₁ j := (hI₁.calls j c hmem).handles req hcarries hnot
  have hne : addressOf m₁ j ≠ 0 :=
    (addressState_of_run (fun m l h => addedOnce_of_properUse (hok m l h.1).2) h₁).subject _ hmem j (if_neg hdie)
  have hstays : addressOf m j = addressOf m₁ j := address_of_run (fun m l h => addedOnce_of_properUse (hok m l h.1).2) h₁ h₂ hne
  refine ⟨fun h => hne (hstays.symm.trans h), hdest.trans hstays.symm, ?_⟩
  cases ha with
  | pong ht hp => exact hdest.symm
  | found hreq => rfl
  | stored => rfl

/-- The contacts that an answer lists are nodes, and not the one that asked. -/
theorem nearest_named (hΓ : Γ.Decodes) (hI : HonestState key m) {q : SentRequest N} {msg : Message UInt32} {ch : Choice}
    (hq : q.Valid Γ key)
    (h : AnsweredBy Γ (fun m l => ok m l ∧ HonestState key m) (startNetwork config key offset limit) m j q.message msg)
    (ht : MessageType.ofCode msg.type = some .findNodes) (he : e ∈ (readFindNodes Γ ch msg).nearest) :
    Contact key m q.requester e := by
  obtain ⟨m₁, c, rest, h₁, h₂, hstack, ha⟩ := h
  have hreads : c.Reads Γ := reads_of_run (run_node h₁ j) c (mem_stack_nodeConfig (hstack ▸ List.mem_cons_self))
  have hreq := hq.requested
  generalize q.message = req at ha hreq
  cases ha with
  | pong ht' hp => cases ht'.symm.trans ht
  | @found _ fm hr =>
    obtain ⟨ht', ch', rfl⟩ := hreads
    obtain ⟨hsender, -, hnone⟩ := readFindNodes_of_requested hΓ hreq ht' ch'
    have hread : readFindNodes Γ ch ((m₁.state.applications j).findNodesReplyTo Γ req (readFindNodes Γ ch' req)) =
        (m₁.state.applications j).findNodesReply Γ (readFindNodes Γ ch' req) := hΓ.findNodes _ _
    rw [hread] at he
    obtain ⟨hhas, hne⟩ := nearest_findNodesReply hnone he
    have hcontact := (h₂.holds_at_start hI).nodes j e hhas
    exact ⟨hcontact.1.mono (settled_of_run hok (fun _ _ h => h.1) h₁ h₂), hsender ▸ hne⟩
  | stored => cases hreads.1.symm.trans ht

variable (hr : Run (networkProgram Γ N) (fun m l => ok m l ∧ HonestState key m) (startNetwork config key offset limit) m)
include hr

/-- A message that a node handles is in circulation. -/
theorem traffic_of_carries (hΓ : Γ.Decodes) {msg : Message UInt32} (hmem : .app i c ∈ m.stack) (hc : c.carries = some msg)
    (hnot : ∀ cb mr t, c ≠ .base (.send msg cb mr t)) :
    Traffic Γ (fun m l => ok m l ∧ HonestState key m) (startNetwork config key offset limit) m msg := by
  rcases (trafficState_of_run hΓ (fun m l h => (hok m l h.1).1) hr).stack _ hmem msg hc with h | ⟨j, cb, mr, t, heq, -⟩
  · exact h
  · cases heq
    exact absurd rfl (hnot cb mr t)

/-- The originator of a message is who its data says. -/
theorem sender_of_traffic (hΓ : Γ.Decodes) (hI : HonestState key m) {msg : Message UInt32}
    (h : Traffic Γ (fun m l => ok m l ∧ HonestState key m) (startNetwork config key offset limit) m msg) :
    ∃ j, addressOf m j = msg.originator ∧ addressOf m j ≠ 0 ∧ SentBy Γ (key j) msg := by
  have hT := trafficState_of_run hΓ (fun m l h => (hok m l h.1).1) hr
  cases h with
  | request q hq heq =>
    subst heq
    have hq' := hI.requests q hq
    exact ⟨q.requester, hq'.originator.symm, hq'.address, sentBy_of_requested hΓ (hT.valid q hq).requested⟩
  | answer q hq j ha =>
    obtain ⟨hne, hdest, horig⟩ := answeredBy_address hok hI ha
    obtain ⟨m₁, c, rest, h₁, h₂, hstack, ha⟩ := ha
    have hreads : c.Reads Γ := reads_of_run (run_node h₁ j) c (mem_stack_nodeConfig (hstack ▸ List.mem_cons_self))
    refine ⟨j, (horig.trans hdest).symm, hne, ?_⟩
    exact key_of_run h₁ j ▸ sentBy_of_answers hΓ hreads ha

/-- What a node observes when it handles a message is a node. -/
theorem observed_named (hΓ : Γ.Decodes) (hI : HonestState key m) {ch : Choice} {a : UInt32} {k : KademliaKey}
    (hmem : .app i c ∈ m.stack) (h : Makes Γ ch (m.state.applications i) c (.observe a k)) : Named key m a k := by
  have hsender : ∀ {msg}, c.carries = some msg → (∀ cb mr t, c ≠ .base (.send msg cb mr t)) →
      ∃ j, addressOf m j = msg.originator ∧ addressOf m j ≠ 0 ∧ SentBy Γ (key j) msg :=
    fun hc hnot => sender_of_traffic hok hr hΓ hI (traffic_of_carries hok hr hΓ hmem hc hnot)
  cases h with
  | observePing ht =>
    obtain ⟨j, hj, hne, hs⟩ := hsender rfl (by simp)
    exact ⟨hj ▸ hne, j, hj, (hs.ping ht).symm⟩
  | observeFindNodes ht =>
    obtain ⟨j, hj, hne, hs⟩ := hsender rfl (by simp)
    exact ⟨hj ▸ hne, j, hj, (hs.findNodes ht ch).symm⟩
  | observeStore ht =>
    obtain ⟨j, hj, hne, hs⟩ := hsender rfl (by simp)
    exact ⟨hj ▸ hne, j, hj, (hs.store ht ch).symm⟩
  | @observeNearest msg fm e hreq he =>
    obtain ⟨ht, ch', rfl⟩ := reads_of_run (run_node hr i) _ (mem_stack_nodeConfig hmem)
    have hT := trafficState_of_run hΓ (fun m l h => (hok m l h.1).1) hr
    cases traffic_of_carries hok hr hΓ hmem rfl (by simp) with
    | request q hq heq =>
      -- a request asks
      have hrequest := (readFindNodes_of_requested hΓ (hT.valid q hq).requested (heq ▸ ht) ch').2.1
      rw [← heq, hreq] at hrequest
      cases hrequest
    | answer q hq j ha => exact (nearest_named hok hΓ hI (hT.valid q hq) ha ht he).1

/-- The contacts of a reply that is given to a lookup are others. -/
theorem replied_contact (hΓ : Γ.Decodes) (hI : HonestState key m) {ch : Choice} {b : Bool} {t : KademliaKey}
    {top : BucketEntry} {msg : Message UInt32} (hmem : .app i (.base (.callback b (.findSuccess t top) msg)) ∈ m.stack)
    (he : e ∈ (readFindNodes Γ ch msg).nearest) : Contact key m i e := by
  obtain rfl := success_of_findSuccess ((fromRequests_of_run (run_node hr i)).2 _ (mem_stack_nodeConfig hmem))
  have hT := trafficState_of_run hΓ (fun m l h => (hok m l h.1).1) hr
  obtain ⟨q, hq, rfl, req, -, -, hrequest, hnone, -, hread, hmsg⟩ := reply_of_callback hΓ (fun m l h => (hok m l h.1).1) hr hmem
  rcases hmsg with rfl | ⟨j, m₁, rest, h₁, h₂, hstack, hmsg⟩
  · rw [hread, hnone] at he
    cases he
  · have ha : AnsweredBy Γ (fun m l => ok m l ∧ HonestState key m) (startNetwork config key offset limit) m j q.message msg :=
      ⟨m₁, _, rest, h₁, h₂, hstack, hmsg ▸ .found hrequest⟩
    have hreads := reads_of_run (run_node h₁ j) (.handleFindNodes q.message req)
      (mem_stack_nodeConfig (hstack ▸ List.mem_cons_self))
    have ht : MessageType.ofCode q.message.type = some .findNodes := hreads.1
    exact nearest_named hok hΓ hI (hT.valid q hq) ha (by rw [hmsg]; exact ht) he

/-! ## A step -/

/-- A call that a node makes carries what is right, if the call that made it did. -/
theorem makes_honest (hΓ : Γ.Decodes) (hI : HonestState key m) {ch : Choice} {z : Call} (hmem : .app i c ∈ m.stack)
    (h : Makes Γ ch (m.state.applications i) c z) : z.Honest key m i := by
  have hA : AddressState m := addressState_of_run (fun m l h => addedOnce_of_properUse (hok m l h.1).2) hr
  have hc : c.Honest key m i := hI.calls i c hmem
  have hkey : (m.state.applications i).key = key i := key_of_run hr i
  have hother : ∀ e, (m.state.applications i).HasContact e ∨ c.HasContact e → e.address ≠ addressOf m i := by
    rintro e (he | he)
    · exact (hI.nodes i e he).address_ne hA
    · exact (hc.contacts e he).address_ne hA
  refine ⟨fun e he => ?_, ?_, fun a ha => ?_, fun msg hmsg hnot => ?_, ?_⟩
  · rcases makes_hasContact h he with he | he | ⟨a, k, rfl, hne, rfl, rfl⟩ | ⟨b, t, top, msg, rfl, he⟩
    · exact hI.nodes i e he
    · exact hc.contacts e he
    · exact ⟨hc.observes _ _ rfl, hkey ▸ hne⟩
    · exact replied_contact hok hr hΓ hI hmem he
  · rintro a k rfl
    exact observed_named hok hr hΓ hI hmem h
  · cases h with
    | pingOldest hi hne hk hb => cases ha; exact hother _ (Or.inl (.bucket _ (hb ▸ List.mem_cons_self)))
    | foundStore he => cases ha; exact hother _ (Or.inr (.found he))
    | republish hk hx ha' he =>
      cases ha
      obtain ⟨⟨j, he⟩, -⟩ := mem_getNearest he
      exact hother _ (Or.inl (.bucket j he))
    | _ => cases ha
  · rcases makes_carries h hmsg with ⟨hcarries, hnot'⟩ | ⟨-, hin⟩ | ⟨cb, mr, t, rfl, -⟩ | ⟨_, rfl, -⟩
    · exact hc.handles msg hcarries hnot'
    · exact (hI.queues i msg hin).2
    · exact absurd rfl (hnot cb mr t)
    · exact absurd rfl (hnot .empty 16 0)
  · rintro msg cb mr t rfl ht
    have hanswer : ∀ {req}, c.carries = some req → (∀ cb mr t, c ≠ .base (.send req cb mr t)) → req.tag ≠ 0 :=
      fun hcarries hnot => (traffic_of_carries hok hr hΓ hmem hcarries hnot).tag_ne
        (trafficState_of_run hΓ (fun m l h => (hok m l h.1).1) hr).valid
    cases h with
    | pingSend hf => exact ⟨rfl, hc.targets _ rfl⟩
    | storeSend => exact ⟨rfl, hc.targets _ rfl⟩
    | @stepSend t' l uncontacted nf top hf hs =>
      refine ⟨rfl, hother top ?_⟩
      have hmem : top ∈ sortByDistanceTo Γ t' (nf.learn l).uncontacted := hs ▸ List.mem_cons_self
      rcases mem_contacts_learn (List.mem_append_left _ (mem_sortByDistanceTo.1 hmem)) with he | he
      · exact Or.inl (.finder t' nf hf he)
      · exact Or.inr (.listed he)
    | @pong req ht' hp =>
      have hne : req.tag ≠ 0 := hanswer rfl (by simp)
      exact absurd ht hne
    | @findNodesReply req fm hreq =>
      have hne : req.tag ≠ 0 := hanswer rfl (by simp)
      exact absurd ht hne
    | @storeReply req sm =>
      have hne : req.tag ≠ 0 := hanswer rfl (by simp)
      exact absurd ht hne

omit hok in
/-- The contacts of the nodes after a step are others. -/
theorem nodes_contact (hI : HonestState key m) {l : NetworkLabel N} (hs : Step (networkProgram Γ N) m l m')
    (hst : Settled m m') : ∀ i e, (m'.state.applications i).HasContact e → Contact key m' i e := by
  intro i e he
  cases hs with
  | @run ch x rest w tr w' cs hw hexec =>
    rcases CentralizedNetwork.applications_cases hexec i with h | ⟨c, q, rfl, h, hi⟩ | ⟨_, -, hi⟩ | ⟨_, -, hi⟩
    · exact (hI.nodes i e (h ▸ he)).mono hst
    · have hc : c.Honest key _ i := hI.calls i c List.mem_cons_self
      rw [hi] at he
      rcases exec_hasContact h he with he | he | ⟨a, k, rfl, hne, rfl, rfl⟩
      · exact (hI.nodes i e he).mono hst
      · exact (hc.contacts e he).mono hst
      · have hkey : (w.applications i).key = key i := key_of_run hr i
        exact ⟨(hc.observes _ _ rfl).mono hst, hkey ▸ hne⟩
    · rw [hi] at he
      exact (hI.nodes i e (he.of_setBase rfl)).mono hst
    · rw [hi] at he
      exact (hI.nodes i e (he.of_setBase rfl)).mono hst
  | _ => exact (hI.nodes i e he).mono hst

/-- The messages that wait for a node after a step are for it. -/
theorem queues_destination (hI : HonestState key m) {l : NetworkLabel N} (hs : Step (networkProgram Γ N) m l m')
    (hst : Settled m m') :
    ∀ i, ∀ msg ∈ (m'.state.applications i).inqueue, addressOf m' i ≠ 0 ∧ msg.destination = addressOf m' i := by
  intro i msg hmsg
  have hA : AddressState m := addressState_of_run (fun m l h => addedOnce_of_properUse (hok m l h.1).2) hr
  have hmono : addressOf m i ≠ 0 ∧ msg.destination = addressOf m i → addressOf m' i ≠ 0 ∧ msg.destination = addressOf m' i :=
    fun h => by rw [hst i h.1]; exact h
  cases hs with
  | @run ch x rest w tr w' cs hw hexec =>
    rcases CentralizedNetwork.applications_cases hexec i with h | ⟨c, q, rfl, h, hi⟩ | ⟨_, -, hi⟩ | ⟨_, -, hi⟩
    · exact hmono (hI.queues i msg (h ▸ hmsg))
    · rw [hi] at hmsg
      rcases exec_inqueue h with hq | ⟨-, hq⟩ | ⟨msg', rfl, hq⟩
      · exact hmono (hI.queues i msg (hq ▸ hmsg))
      · exact hmono (hI.queues i msg (List.mem_of_mem_tail (hq ▸ hmsg)))
      · rw [hq, List.mem_append] at hmsg
        rcases hmsg with hmsg | hmsg
        · exact hmono (hI.queues i msg hmsg)
        · have heq : msg = msg' := by
            split at hmsg
            · exact List.mem_singleton.1 hmsg
            · cases hmsg
          subst heq
          refine hmono ⟨hA.subject _ List.mem_cons_self i rfl, ?_⟩
          exact (hI.calls i _ List.mem_cons_self).handles msg rfl (by simp)
    · rw [hi] at hmsg
      exact hmono (hI.queues i msg hmsg)
    · rw [hi] at hmsg
      exact hmono (hI.queues i msg hmsg)
  | _ => exact hmono (hI.queues i msg hmsg)

/-- The requests after a step go from the node that made them to another. -/
theorem requests_addressed (hI : HonestState key m) {l : NetworkLabel N} (hs : Step (networkProgram Γ N) m l m')
    (hst : Settled m m') : ∀ q ∈ requests m'.trace, q.Addressed m' := by
  intro q hq
  have hA : AddressState m := addressState_of_run (fun m l h => addedOnce_of_properUse (hok m l h.1).2) hr
  cases hs with
  | @run ch x rest w tr w' cs hw hexec =>
    rcases requests_cons (x, ch) tr with heq | ⟨i, msg, cb, mr, t, ch', heq, ht, -, hreq⟩
    · rw [heq] at hq
      exact (hI.requests q hq).mono hst
    · cases heq
      rw [hreq] at hq
      rcases List.mem_cons.1 hq with rfl | hq
      · obtain ⟨horig, hdest⟩ := (hI.calls i _ List.mem_cons_self).sends msg cb mr t rfl ht
        have haddressed : SentRequest.Addressed ⟨w, .app i (.base (.send msg cb mr t)) :: rest, tr⟩
            ⟨i, msg.tagged ch.tag, cb, mr⟩ := by
          refine ⟨hA.subject _ List.mem_cons_self i rfl, ?_, ?_⟩
          · simp only [Message.tagged, ht, if_true]
            exact horig
          · simp only [Message.tagged, ht, if_true]
            exact hdest
        exact haddressed.mono hst
      · exact (hI.requests q hq).mono hst
  | _ => exact (hI.requests q hq).mono hst

/-- A call of the network in a node carries what is right. -/
theorem honest_call (hΓ : Γ.Decodes) (hmem : .call i c ∈ m.stack) : c.Honest key m i := by
  have hA : AddressState m := addressState_of_run (fun m l h => addedOnce_of_properUse (hok m l h.1).2) hr
  have hT := trafficState_of_run hΓ (fun m l h => (hok m l h.1).1) hr
  have hnet : c.fromNetwork = true := (NetworkCall.layered_of_run hr).events i c hmem
  refine ⟨fun e he => absurd he (not_hasContact_of_comesIn (comesIn_of_fromNetwork hnet)), ?_, ?_, fun msg hmsg hnot => ?_, ?_⟩
  · rintro a k rfl
    cases hnet
  · intro a ha
    cases c with
    | ping b cb => cases hnet
    | storeAt b v => cases hnet
    | _ => cases ha
  · cases c with
    | base b =>
      cases b with
      | recv msg' => cases hmsg; exact (hA.delivers i msg hmem).symm
      | send msg' cb mr t => cases hmsg; exact absurd rfl (hnot cb mr t)
      | _ => cases hnet
    | tick t => cases hmsg
    | _ => cases hnet
  · rintro msg cb mr t rfl ht
    -- what the network sends again has its tag
    rcases hT.stack _ hmem msg rfl with h | ⟨_, _, _, _, heq, -⟩
    · exact absurd ht (h.tag_ne hT.valid)
    · cases heq

omit hok in
/-- What comes in carries what is right. -/
theorem honest_enter (hl : properUse m (.enter (.app i c)) = true)
    (hx : (networkProgram Γ N).event (.app i c) = true ∨ (networkProgram Γ N).reentry (.app i c) = true) :
    c.Honest key m i := by
  have hcomes : c.comesIn = true := (NetworkCall.enters_cases hx).2 i c rfl
  have hnone : c.carries = none := carries_of_enters hx
  simp only [properUse, Bool.or_eq_true, Bool.and_eq_true, decide_eq_true_eq] at hl
  rcases hl with rfl | ⟨-, hothers⟩
  · exact honest_die
  refine ⟨fun e he => absurd he (not_hasContact_of_comesIn hcomes), ?_, fun a ha => ?_, fun msg hmsg => ?_, ?_⟩
  · rintro a k rfl
    simp only [Call.namesOthers, Bool.and_eq_true, decide_eq_true_eq, List.any_eq_true, List.mem_finRange, true_and] at hothers
    obtain ⟨hne, j, hj, hk⟩ := hothers
    exact ⟨hne, j, hj, key_of_run hr j ▸ hk⟩
  · cases c with
    | ping b cb => cases ha; exact of_decide_eq_true hothers
    | storeAt b v => cases ha; exact of_decide_eq_true hothers
    | _ => cases ha
  · rw [hnone] at hmsg
    cases hmsg
  · rintro msg cb mr t rfl
    cases hnone

end Back

end HonestyAux

open HonestyAux AddressesAux

/-- In every reachable configuration of a network that is used properly, what the nodes know is right; and so it was all along. -/
theorem honestState_of_run (hΓ : Γ.Decodes) (hok : ∀ m l, ok m l → freshNetworkTags m l = true ∧ properUse m l = true)
    (h : Run (networkProgram Γ N) ok (startNetwork config key offset limit) m) :
    Run (networkProgram Γ N) (fun m l => ok m l ∧ HonestState key m) (startNetwork config key offset limit) m ∧
      HonestState key m := by
  refine h.invariant_throughout (I := HonestState key) ⟨fun i e he => ?_, ?_, by simp [startNetwork],
    by simp [startNetwork, requests]⟩ ?_
  · cases he with
    | bucket j h => cases h
    | finder t nf hf h => simp [startNetwork, CentralizedNetwork.init, KademliaNode.init] at hf
    | asked tag r fn hrec hfn h => simp [startNetwork, CentralizedNetwork.init, KademliaNode.init] at hrec
    | newcomer j h => simp [startNetwork, CentralizedNetwork.init, KademliaNode.init, pingFns] at h
  · intro i msg hmsg
    simp [startNetwork, CentralizedNetwork.init, KademliaNode.init] at hmsg
  · intro m l m' hr hI hl hs
    have hst : Settled m m' := settled_of_run hok (fun _ _ h => h.1) hr (Run.refl.step ⟨hl, hI⟩ hs.step_eq)
    have hA : AddressState m := addressState_of_run (fun m l h => addedOnce_of_properUse (hok m l h.1).2) hr
    refine ⟨nodes_contact hr hI hs hst, queues_destination hok hr hI hs hst, fun i c hmem => ?_,
      requests_addressed hok hr hI hs hst⟩
    by_cases hdie : c = .base .die
    · exact hdie ▸ honest_die
    have hold : .app i c ∈ m.stack → c.Honest key m' i :=
      fun hmem => (hI.calls i c hmem).mono hst (hA.subject _ hmem i (if_neg hdie))
    have hnew : ∀ {x}, (hl : properUse m (.enter x) = true) →
        (networkProgram Γ N).event x = true ∨ (networkProgram Γ N).reentry x = true → .app i c = x → c.Honest key m' i := by
      rintro x hl hx rfl
      have hne : addressOf m i ≠ 0 := subject_of_enter (addedOnce_of_properUse hl) hx (if_neg hdie)
      exact (honest_enter hr hl hx).mono hst hne
    cases hs with
    | @run ch x rest w tr w' cs hw he =>
      rcases List.mem_append.1 hmem with hmem | hmem
      · cases CentralizedNetwork.exec_makes he _ hmem with
        | @inside _ c' _ hz =>
          have hdie' : c' ≠ .base .die := by
            rintro rfl
            cases hz
          have hne := hA.subject (.app i c') List.mem_cons_self i (if_neg hdie')
          exact (makes_honest hok hr hΓ hI List.mem_cons_self hz).mono hst hne
        | handOn =>
          exact (honest_call hok hr hΓ List.mem_cons_self).mono hst (hA.subject _ List.mem_cons_self i rfl)
      · exact hold (List.mem_cons_of_mem _ hmem)
    | @event x w tr hx => exact hnew (hok _ _ hl).2 (Or.inl hx) (List.mem_singleton.1 hmem)
    | @reentry x f rest w tr hf hx =>
      rcases List.mem_cons.1 hmem with heq | hmem
      · exact hnew (hok _ _ hl).2 (Or.inr hx) heq
      · exact hold hmem
    | @leave f rest w tr hf => exact hold (List.mem_cons_of_mem _ hmem)

end Dhtsim
