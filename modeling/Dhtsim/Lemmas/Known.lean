import Dhtsim.Lemmas.Residents

/-!
# Whom the nodes of a network know

Among inhabitants that stay, every address that a node knows is one where somebody lives: those of its contacts, of the messages
it has, and of the contacts that such a message lists.
-/

namespace Dhtsim

open CallMachine KademliaNode

/-- The addresses in a message are of inhabitants: those it goes from and to, and those it lists. -/
structure Message.Known {N : Nat} (Γ : Ctx) (w : CentralizedNetwork N) (msg : Message UInt32) : Prop where
  originator : w.livesAt msg.originator
  destination : w.livesAt msg.destination
  listed : MessageType.ofCode msg.type = some .findNodes → ∀ ch, ∀ e ∈ (readFindNodes Γ ch msg).nearest, w.livesAt e.address

/-- The addresses in a call of node `i` are of inhabitants, and what it sends with callbacks is from the node itself, with a
timeout of 2. -/
structure Call.Known {N : Nat} (w : CentralizedNetwork N) (i : Fin N) (c : Call) : Prop where
  contacts : ∀ e, c.HasContact e → w.livesAt e.address
  names : ∀ a, c.names = some a → w.livesAt a
  sends : ∀ msg cb mr t, c = .base (.send msg cb mr t) → cb.isEmpty = false →
    msg.originator = (w.applications i).address ∧ t = 2

/-- Whom the nodes of a network know are inhabitants. -/
structure KnownState {N : Nat} (Γ : Ctx) (m : NetworkConfig N) : Prop where
  nodes : ∀ i e, (m.state.applications i).HasContact e → m.state.livesAt e.address
  messages : ∀ i, ∀ msg ∈ (m.state.applications i).messages, msg.Known Γ m.state
  calls : ∀ i c, .app i c ∈ m.stack → c.Known m.state i
  carried : ∀ x ∈ m.stack, ∀ msg, x.carries = some msg → msg.Known Γ m.state

variable {N : Nat} {Γ : Ctx} {config : Fin N → Config} {key : Fin N → KademliaKey} {offset : Fin N → Time} {limit : UInt32}
  {ok : NetworkConfig N → NetworkLabel N → Prop} {m m' : NetworkConfig N} {w w' : CentralizedNetwork N} {i j : Fin N} {c : Call}
  {msg : Message UInt32} {ch : Choice}

theorem Message.Known.mono (h : msg.Known Γ w) (hstay : ∀ a, w.livesAt a → w'.livesAt a) : msg.Known Γ w' :=
  ⟨hstay _ h.originator, hstay _ h.destination, fun ht ch e he => hstay _ (h.listed ht ch e he)⟩

theorem Call.Known.mono (h : c.Known w i) (hstay : ∀ a, w.livesAt a → w'.livesAt a)
    (haddr : (w'.applications i).address = (w.applications i).address) : c.Known w' i :=
  ⟨fun e he => hstay _ (h.contacts e he), fun a ha => hstay _ (h.names a ha), fun msg cb mr t hc hcb =>
    haddr ▸ h.sends msg cb mr t hc hcb⟩

theorem Message.Known.tagged (h : msg.Known Γ w) (drawn : Tag) : (msg.tagged drawn).Known Γ w := by
  unfold Message.tagged
  split
  · exact ⟨h.originator, h.destination, h.listed⟩
  · exact h

namespace KnownAux

open HonestyAux ResidentsAux

/-- A request lists nobody. -/
theorem known_of_requested (hΓ : Γ.Decodes) {k : KademliaKey} (h : Requested Γ k msg) (horig : w.livesAt msg.originator)
    (hdest : w.livesAt msg.destination) : msg.Known Γ w := by
  refine ⟨horig, hdest, fun ht ch e he => ?_⟩
  rw [(readFindNodes_of_requested hΓ h ht ch).2.2] at he
  cases he

/-- What an answer lists is in the buckets of the node that answers, or in the message it answers. -/
theorem mem_findNodesReply {n : KademliaNode} {fm : FindNodesMessage} {e : BucketEntry}
    (he : e ∈ (n.findNodesReply Γ fm).nearest) : n.HasContact e ∨ e ∈ fm.nearest := by
  unfold findNodesReply at he
  split at he
  · exact Or.inr he
  · obtain ⟨⟨i, he⟩, -⟩ := mem_getNearest he
    exact Or.inl (.bucket i he)

section Step

variable (hΓ : Γ.Decodes) (hok : ∀ m l, ok m l → nobodyLeaves m l = true ∧ addsNew m l = true)
  (hr : Run (networkProgram Γ N) ok (startNetwork config key offset limit) m) (hI : KnownState Γ m)
include hΓ hok hr hI

omit hΓ hI in
/-- Whoever makes a call has an address, and lives there. -/
theorem livesAt_of_mem (hmem : .app i c ∈ m.stack) (hc : c ≠ .base .die) : m.state.livesAt (addressOf m i) := by
  have hR := residentState_of_run hok hr
  exact ⟨i, hR.resides i (hR.addresses.subject _ hmem i (if_neg hc))⟩

/-- The contacts of a reply that is given to a lookup are inhabitants. -/
theorem livesAt_of_reply {b : Bool} {t : KademliaKey} {top e : BucketEntry}
    (hmem : .app i (.base (.callback b (.findSuccess t top) msg)) ∈ m.stack) (he : e ∈ (readFindNodes Γ ch msg).nearest) :
    m.state.livesAt e.address := by
  obtain rfl := success_of_findSuccess ((fromRequests_of_run (run_node hr i)).2 _ (mem_stack_nodeConfig hmem))
  obtain ⟨q, -, -, req, -, -, -, hnone, -, hread, hmsg⟩ :=
    reply_of_callback hΓ (fun m l h => freshNetworkTags_of_nobodyLeaves (hok m l h).1) hr hmem
  rcases hmsg with rfl | ⟨j, m₁, rest, h₁, -, hstack, hmsg⟩
  · rw [hread, hnone] at he
    cases he
  · obtain ⟨ht, -⟩ := reads_of_run (run_node h₁ j) (.handleFindNodes q.message req)
      (mem_stack_nodeConfig (hstack ▸ List.mem_cons_self))
    refine (hI.carried _ hmem msg rfl).listed ?_ ch e he
    rw [hmsg]
    exact ht

/-- What a call names or sends is of inhabitants, if what made it knew only such. -/
theorem makes_known {z : Call} (hmem : .app i c ∈ m.stack) (h : Makes Γ ch (m.state.applications i) c z) :
    z.Known m.state i := by
  have hc : c.Known m.state i := hI.calls i c hmem
  have hnode : ∀ e, (m.state.applications i).HasContact e → m.state.livesAt e.address := hI.nodes i
  refine ⟨fun e he => ?_, fun a ha => ?_, ?_⟩
  · rcases makes_hasContact h he with he | he | ⟨a, k, rfl, -, rfl, rfl⟩ | ⟨b, t, top, msg, rfl, he⟩
    · exact hnode e he
    · exact hc.contacts e he
    · exact hc.names _ rfl
    · exact livesAt_of_reply hΓ hok hr hI hmem he
  · cases h with
    | observePing | observeFindNodes | observeStore =>
      cases ha
      exact (hI.carried _ hmem _ rfl).originator
    | observeNearest hreq he =>
      cases ha
      obtain ⟨ht, ch', rfl⟩ := reads_of_run (run_node hr i) _ (mem_stack_nodeConfig hmem)
      exact (hI.carried _ hmem _ rfl).listed ht ch' _ he
    | pingOldest hi hne hk hb =>
      cases ha
      exact hnode _ (.bucket _ (hb ▸ List.mem_cons_self))
    | foundStore he =>
      cases ha
      exact hc.contacts _ (.found he)
    | republish hk hx hadded he =>
      cases ha
      obtain ⟨⟨j, he⟩, -⟩ := mem_getNearest he
      exact hnode _ (.bucket j he)
    | _ => cases ha
  · rintro msg cb mr t rfl hcb
    cases h with
    | pingSend | stepSend => exact ⟨rfl, rfl⟩
    | _ => cases hcb

/-- A message that a call carries is known, if what made the call knew only inhabitants. -/
theorem makes_carries_known {z : Call} (hmem : .app i c ∈ m.stack) (h : Makes Γ ch (m.state.applications i) c z)
    (hz : z.carries = some msg) : msg.Known Γ m.state := by
  have hc : c.Known m.state i := hI.calls i c hmem
  have hdie : c ≠ .base .die := by
    rintro rfl
    cases h
  have hself : m.state.livesAt (addressOf m i) := livesAt_of_mem hok hr hmem hdie
  rcases makes_carries h hz with ⟨hcarries, -⟩ | ⟨-, hin⟩ | ⟨cb, mr, t, rfl, -, horig, hreq⟩ | ⟨req, rfl, ha⟩
  · exact hI.carried _ hmem msg hcarries
  · exact hI.messages i msg (mem_messages.2 (Or.inl hin))
  · refine known_of_requested hΓ hreq (horig ▸ hself) ?_
    cases h with
    | pingSend | storeSend => exact hc.names _ rfl
    | @stepSend t l uncontacted nf top hf hs =>
      have hmem : top ∈ sortByDistanceTo Γ t (nf.learn l).uncontacted := hs ▸ List.mem_cons_self
      rcases mem_contacts_learn (List.mem_append_left _ (mem_sortByDistanceTo.1 hmem)) with he | he
      · exact hI.nodes i top (.finder t nf hf he)
      · exact hc.contacts top (.listed he)
    | pong | findNodesReply | storeReply => exact (hI.carried _ hmem _ rfl).originator
  · have hreads : c.Reads Γ := reads_of_run (run_node hr i) c (mem_stack_nodeConfig hmem)
    have hcarries : c.carries = some req := by cases ha <;> rfl
    have hknown : req.Known Γ m.state := hI.carried _ hmem req hcarries
    cases ha with
    | pong ht hp =>
      refine ⟨hself, hknown.originator, fun ht' => ?_⟩
      cases ht.symm.trans ht'
    | @found _ fm hreq =>
      obtain ⟨ht, ch', rfl⟩ := hreads
      refine ⟨hknown.destination, hknown.originator, fun _ ch'' e he => ?_⟩
      have hread : readFindNodes Γ ch'' ((m.state.applications i).findNodesReplyTo Γ req (readFindNodes Γ ch' req)) =
          (m.state.applications i).findNodesReply Γ (readFindNodes Γ ch' req) := hΓ.findNodes _ _
      rw [hread] at he
      rcases mem_findNodesReply he with he | he
      · exact hI.nodes i e he
      · exact hknown.listed ht ch' e he
    | stored =>
      refine ⟨hknown.destination, hknown.originator, fun ht' => ?_⟩
      cases hreads.1.symm.trans ht'

omit hΓ hok hr in
/-- The contacts of the nodes after a step are inhabitants. -/
theorem nodes_known {l : NetworkLabel N} (hs : Step (networkProgram Γ N) m l m')
    (hstay : ∀ a, m.state.livesAt a → m'.state.livesAt a) :
    ∀ i e, (m'.state.applications i).HasContact e → m'.state.livesAt e.address := by
  intro i e he
  refine hstay _ ?_
  cases hs with
  | @run ch x rest w tr w' cs hw hexec =>
    rcases CentralizedNetwork.applications_cases hexec i with h | ⟨c, q, rfl, h, hi⟩ | ⟨_, -, hi⟩ | ⟨_, -, hi⟩
    · exact hI.nodes i e (h ▸ he)
    · have hc : c.Known _ i := hI.calls i c List.mem_cons_self
      rw [hi] at he
      rcases exec_hasContact h he with he | he | ⟨a, k, rfl, -, rfl, rfl⟩
      · exact hI.nodes i e he
      · exact hc.contacts e he
      · exact hc.names _ rfl
    · rw [hi] at he
      exact hI.nodes i e (he.of_setBase rfl)
    · rw [hi] at he
      exact hI.nodes i e (he.of_setBase rfl)
  | _ => exact hI.nodes i e he

/-- The messages of the nodes after a step are known. -/
theorem messages_known {l : NetworkLabel N} (hs : Step (networkProgram Γ N) m l m')
    (hstay : ∀ a, m.state.livesAt a → m'.state.livesAt a) :
    ∀ i, ∀ msg ∈ (m'.state.applications i).messages, msg.Known Γ m'.state := by
  intro i msg hmsg
  have hT := trafficState_of_run hΓ (fun m l h => freshNetworkTags_of_nobodyLeaves (hok m l h).1) hr
  suffices hknown : msg.Known Γ m.state from hknown.mono hstay
  cases hs with
  | @run ch x rest w tr w' cs hw hexec =>
    rcases CentralizedNetwork.applications_cases hexec i with h | ⟨c, q, rfl, h, hi⟩ | ⟨_, -, hi⟩ | ⟨_, -, hi⟩
    · exact hI.messages i msg (h ▸ hmsg)
    · have htags : ∀ tag r, (tag, r) ∈ (w.applications i).callbacks.entries → r.message.tag ≠ 0 := by
        intro tag r hrec
        obtain ⟨q, hq, -, hmsg, -⟩ := hT.records i tag r hrec
        exact hmsg ▸ (hT.valid q hq).tag
      rw [hi] at hmsg
      rcases exec_messages h htags hmsg with hmsg | rfl | ⟨msg, cb, mr, t, rfl, -, rfl⟩
      · exact hI.messages i msg hmsg
      · exact hI.carried _ List.mem_cons_self msg rfl
      · exact (hI.carried _ List.mem_cons_self msg rfl).tagged ch.tag
    · rw [hi] at hmsg
      rcases mem_messages.1 hmsg with h | h | h
      · exact hI.messages i msg (mem_messages.2 (Or.inl h))
      · exact hI.messages i msg (mem_messages.2 (Or.inr (Or.inl (List.mem_of_mem_tail h))))
      · exact hI.messages i msg (mem_messages.2 (Or.inr (Or.inr h)))
    · rw [hi] at hmsg
      exact hI.messages i msg hmsg
  | _ => exact hI.messages i msg hmsg

/-- A message that waits to be sent is passed along, and one that is passed along is handed to a node. -/
theorem carried_known {x y : NetworkCall N} {ch : NetworkChoice} (hx : x ∈ m.stack) (h : NetworkMakes Γ ch m.state x y)
    (hy : y.carries = some msg) : msg.Known Γ m.state := by
  cases h with
  | @inside i c z hz => exact makes_carries_known hΓ hok hr hI hx hz hy
  | handOn => exact hI.carried _ hx msg hy
  | sendAgain hq hlimit =>
    cases hy
    exact hI.messages _ msg (mem_messages.2 (Or.inr (Or.inl (hq ▸ List.mem_cons_self))))
  | passAlong hq =>
    cases hy
    exact hI.messages _ msg (mem_messages.2 (Or.inr (Or.inl (hq ▸ List.mem_cons_self))))
  | recv hf =>
    cases hy
    exact hI.carried _ hx msg rfl
  | _ => cases hy

end Step

/-- What comes in names only inhabitants, and carries no contacts. -/
theorem known_enter (hok : nobodyLeaves m (.enter (.app i c)) = true)
    (hx : (networkProgram Γ N).event (.app i c) = true ∨ (networkProgram Γ N).reentry (.app i c) = true) :
    c.Known m.state i := by
  have hcomes : c.comesIn = true := (NetworkCall.enters_cases hx).2 i c rfl
  refine ⟨fun e he => absurd he (not_hasContact_of_comesIn hcomes), (enter_of_nobodyLeaves hok).2.2, ?_⟩
  rintro msg cb mr t rfl
  have hnone := carries_of_enters hx
  cases hnone

theorem known_die : (Call.base .die).Known w i := by
  refine ⟨fun e he => ?_, by simp [Call.names], by simp⟩
  cases he with
  | newcomer i h => cases h

/-- A call of the network in a node names nobody. -/
theorem known_call (hnet : c.fromNetwork = true) : c.Known w i := by
  refine ⟨fun e he => absurd he (not_hasContact_of_comesIn (comesIn_of_fromNetwork hnet)), fun a ha => ?_, ?_⟩
  · cases c with
    | ping | storeAt | observe => cases hnet
    | _ => cases ha
  · rintro msg cb mr t rfl hcb
    have hempty : cb.isEmpty = true := comesIn_of_fromNetwork hnet
    rw [hempty] at hcb
    cases hcb

end KnownAux

open KnownAux ResidentsAux

/-- In every reachable configuration among inhabitants, whom the nodes know are inhabitants. -/
theorem knownState_of_run (hΓ : Γ.Decodes) (hok : ∀ m l, ok m l → nobodyLeaves m l = true ∧ addsNew m l = true)
    (h : Run (networkProgram Γ N) ok (startNetwork config key offset limit) m) : KnownState Γ m := by
  refine h.invariant (I := KnownState Γ) ⟨fun i e he => ?_, ?_, by simp [startNetwork], by simp [startNetwork]⟩ ?_
  · cases he with
    | bucket j h => cases h
    | finder t nf hf h => cases hf
    | asked tag r fn hrec hfn h => cases hrec
    | newcomer j h => cases h
  · intro i msg hmsg
    cases hmsg
  · intro m l m' hr hI hl hs
    have hR := residentState_of_run hok hr
    have hstay : ∀ a, m.state.livesAt a → m'.state.livesAt a := by
      rintro a ⟨j, hj⟩
      exact ⟨j, find?_step hR.addresses (hok m l hl).1 hs hj⟩
    have haddr : ∀ i, addressOf m i ≠ 0 → addressOf m' i = addressOf m i :=
      fun i hne => AddressesAux.address_stays hr hR.addresses hs hne
    refine ⟨nodes_known hI hs hstay, messages_known hΓ hok hr hI hs hstay, ?_, ?_⟩
    · intro i c hmem
      by_cases hdie : c = .base .die
      · subst hdie
        exact known_die
      have hold : .app i c ∈ m.stack → c.Known m'.state i :=
        fun hmem => (hI.calls i c hmem).mono hstay (haddr i (hR.addresses.subject _ hmem i (if_neg hdie)))
      have hnew : ∀ {x}, nobodyLeaves m (.enter x) = true →
          (networkProgram Γ N).event x = true ∨ (networkProgram Γ N).reentry x = true → .app i c = x → c.Known m'.state i := by
        rintro x hl hx rfl
        have hne : addressOf m i ≠ 0 := (hR.addresses.inhabits _ _ (enter_of_nobodyLeaves hl).2.1).2
        exact (known_enter hl hx).mono hstay (haddr i hne)
      cases hs with
      | @run ch x rest w tr w' cs hw he =>
        rcases List.mem_append.1 hmem with hmem | hmem
        · cases CentralizedNetwork.exec_makes he _ hmem with
          | @inside _ c' _ hz =>
            have hdie' : c' ≠ .base .die := by
              rintro rfl
              cases hz
            have hne := hR.addresses.subject (.app i c') List.mem_cons_self i (if_neg hdie')
            exact (makes_known hΓ hok hr hI List.mem_cons_self hz).mono hstay (haddr i hne)
          | handOn => exact known_call ((NetworkCall.layered_of_run hr).events i c List.mem_cons_self)
        · exact hold (List.mem_cons_of_mem _ hmem)
      | @event x w tr hx => exact hnew (hok _ _ hl).1 (Or.inl hx) (List.mem_singleton.1 hmem)
      | @reentry x f rest w tr hf hx =>
        rcases List.mem_cons.1 hmem with heq | hmem
        · exact hnew (hok _ _ hl).1 (Or.inr hx) heq
        · exact hold hmem
      | leave hf => exact hold (List.mem_cons_of_mem _ hmem)
    · intro x hmem msg hmsg
      suffices hknown : msg.Known Γ m.state from hknown.mono hstay
      cases hs with
      | @run ch x rest w tr w' cs hw he =>
        rcases List.mem_append.1 hmem with hmem | hmem
        · exact carried_known hΓ hok hr hI List.mem_cons_self (CentralizedNetwork.exec_makes he _ hmem) hmsg
        · exact hI.carried _ (List.mem_cons_of_mem _ hmem) msg hmsg
      | @event x w tr hx =>
        rw [List.mem_singleton.1 hmem, carries_of_enters (Or.inl hx)] at hmsg
        cases hmsg
      | @reentry x f rest w tr hf hx =>
        rcases List.mem_cons.1 hmem with rfl | hmem
        · rw [carries_of_enters (Or.inr hx)] at hmsg
          cases hmsg
        · exact hI.carried _ hmem msg hmsg
      | leave hf => exact hI.carried _ (List.mem_cons_of_mem _ hmem) msg hmsg

end Dhtsim
