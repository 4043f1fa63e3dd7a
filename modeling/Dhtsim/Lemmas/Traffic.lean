import Dhtsim.Lemmas.Messages
import Dhtsim.Lemmas.Projection

/-!
# The messages of a network

Every message in a network is a copy of a request, for which its sender drew a tag that no other request has, or the answer that
some node made to a copy of a request when it handled it (`Traffic`). Here nothing is assumed of addresses.
-/

namespace Dhtsim

open CallMachine KademliaNode

/-- A request that was sent: who sent it, the message as it went out, and with what it was sent. -/
structure SentRequest (N : Nat) where
  requester : Fin N
  message : Message UInt32
  callback : CallbackSet SendFn
  maxRetries : UInt32

/-- The requests that were sent, the last one first: the messages for which a live node drew a tag. -/
def requests {N : Nat} : NetworkTrace N → List (SentRequest N)
  | [] => []
  | (.app i (.base (.send m cb maxRetries _)), ch) :: tr =>
    if m.tag = 0 ∧ ∀ e ∈ tr, e.1 ≠ .app i (.base .die) then ⟨i, m.tagged ch.tag, cb, maxRetries⟩ :: requests tr
    else requests tr
  | _ :: tr => requests tr

/-- The message that a call sends, passes on or handles. -/
def NetworkCall.carries {N : Nat} : NetworkCall N → Option (Message UInt32)
  | .app _ c => c.carries
  | .call _ c => c.carries
  | .passAlongMessage m => some m
  | _ => none

/-! ## Answers -/

/-- A message that answers: a pong, or the data of a reply. -/
inductive IsAnswer (Γ : Ctx) : Message UInt32 → Prop where
  | pong {msg : Message UInt32} (key : KademliaKey) (htype : MessageType.ofCode msg.type = some .ping)
      (hdata : msg.data = Γ.ping.write (PingMessage.pong key)) : IsAnswer Γ msg
  | found {msg : Message UInt32} (fm : FindNodesMessage) (htype : MessageType.ofCode msg.type = some .findNodes)
      (hr : fm.request = false) (hdata : msg.data = Γ.findNodes.write fm) : IsAnswer Γ msg
  | stored {msg : Message UInt32} (key : KademliaKey) (htype : MessageType.ofCode msg.type = some .store)
      (hdata : msg.data = Γ.store.write ⟨false, key, []⟩) : IsAnswer Γ msg

/-- What a call handles is what a node read from the message. -/
def Call.Reads (Γ : Ctx) : Call → Prop
  | .handleFindNodes m fm => MessageType.ofCode m.type = some .findNodes ∧ ∃ ch, fm = readFindNodes Γ ch m
  | .handleStore m sm => MessageType.ofCode m.type = some .store ∧ sm.request = true ∧ ∃ ch, sm = readStore Γ ch m
  | _ => True

section Answers

variable {Γ : Ctx} {ch : Choice} {key : KademliaKey} {n : KademliaNode} {c x : Call} {m msg : Message UInt32}

theorem makes_reads (h : Makes Γ ch n c x) : x.Reads Γ := by
  cases h with
  | findNodes ht => exact ⟨ht, ch, rfl⟩
  | storeRequested ht hr => exact ⟨ht, hr, ch, rfl⟩
  | _ => trivial

theorem reads_of_isEvent (h : c.isEvent = true) : c.Reads Γ := by
  cases c with
  | handleFindNodes m fm => cases h
  | handleStore m sm => cases h
  | _ => trivial

theorem answer_tag (h : Answers Γ n c m msg) : msg.tag = m.tag := by
  cases h <;> rfl

theorem answer_destination (h : Answers Γ n c m msg) : msg.destination = m.originator := by
  cases h <;> rfl

/-- A node answers with an answer. -/
theorem isAnswer_of_answers (hc : c.Reads Γ) (h : Answers Γ n c m msg) : IsAnswer Γ msg := by
  cases h with
  | pong ht hp => exact .pong n.key ht rfl
  | @found _ fm hr =>
    refine .found (n.findNodesReply Γ fm) hc.1 ?_ rfl
    unfold findNodesReply
    split <;> rfl
  | stored => exact .stored n.key hc.1 rfl

/-- An answer is not answered. -/
theorem not_isAnswer_of_answers (hΓ : Γ.Decodes) (hc : c.Reads Γ) (h : Answers Γ n c m msg) : ¬ IsAnswer Γ m := by
  intro ha
  cases h with
  | pong ht hp =>
    cases ha with
    | pong k htype hdata => rw [readPing, hdata, hΓ.ping] at hp; cases hp
    | found fm htype hr hdata => rw [ht] at htype; cases htype
    | stored k htype hdata => rw [ht] at htype; cases htype
  | found hr =>
    obtain ⟨ht, ch, rfl⟩ := hc
    cases ha with
    | pong k htype hdata => rw [ht] at htype; cases htype
    | found fm htype hr' hdata =>
      rw [readFindNodes, hdata, hΓ.findNodes, hr'] at hr
      cases hr
    | stored k htype hdata => rw [ht] at htype; cases htype
  | stored =>
    obtain ⟨ht, hr, ch, rfl⟩ := hc
    cases ha with
    | pong k htype hdata => rw [ht] at htype; cases htype
    | found fm htype hr' hdata => rw [ht] at htype; cases htype
    | stored k htype hdata => rw [readStore, hdata, hΓ.store] at hr; cases hr

/-- A request is not an answer. -/
theorem not_isAnswer_of_requested (hΓ : Γ.Decodes) (h : Requested Γ key msg) : ¬ IsAnswer Γ msg := by
  intro ha
  have hping : MessageType.ofCode MessageType.ping.code = some .ping := rfl
  have hfind : MessageType.ofCode MessageType.findNodes.code = some .findNodes := rfl
  have hstore : MessageType.ofCode MessageType.store.code = some .store := rfl
  cases h with
  | ping htype hdata =>
    cases ha with
    | pong k htype' hdata' =>
      have heq := congrArg (Γ.ping.read · (PingMessage.ping .zero)) (hdata.symm.trans hdata')
      simp only [hΓ.ping _ _] at heq
      cases heq
    | found fm htype' hr hdata' => rw [htype, hping] at htype'; cases htype'
    | stored k htype' hdata' => rw [htype, hping] at htype'; cases htype'
  | find t fv htype hdata =>
    cases ha with
    | pong k htype' hdata' => rw [htype, hfind] at htype'; cases htype'
    | found fm htype' hr hdata' =>
      have heq := congrArg (Γ.findNodes.read · fm) (hdata.symm.trans hdata')
      simp only [hΓ.findNodes _ _] at heq
      rw [← heq] at hr
      cases hr
    | stored k htype' hdata' => rw [htype, hfind] at htype'; cases htype'
  | store v htype hdata =>
    cases ha with
    | pong k htype' hdata' => rw [htype, hstore] at htype'; cases htype'
    | found fm htype' hr hdata' => rw [htype, hstore] at htype'; cases htype'
    | stored k htype' hdata' =>
      have heq := congrArg (Γ.store.read · ⟨true, key, v⟩) (hdata.symm.trans hdata')
      simp only [hΓ.store _ _] at heq
      cases heq

theorem KademliaNode.Requested.tagged (h : Requested Γ key msg) (drawn : Tag) : Requested Γ key (msg.tagged drawn) := by
  unfold Message.tagged
  split
  · cases h with
    | ping htype hdata => exact .ping htype hdata
    | find t fv htype hdata => exact .find t fv htype hdata
    | store v htype hdata => exact .store v htype hdata
  · exact h

end Answers

/-- What is on the stack of a node to be handled was read from the message. -/
theorem reads_of_run {Γ : Ctx} {config : Config} {key : KademliaKey} {offset : Time} {ok : NodeConfig → NodeLabel → Prop}
    {m : NodeConfig} (h : Run (nodeProgram Γ) ok (startNode config key offset) m) : ∀ c ∈ m.stack, c.Reads Γ := by
  refine (h.invariant_stack (S := fun _ => True) (C := fun _ c => c.Reads Γ) ⟨trivial, fun c hc => absurd hc List.not_mem_nil⟩
    ?_ ?_).2
  · intro ch c rest n tr n' cs _ _ hrest _ he
    exact ⟨trivial, fun x hx => makes_reads (exec_makes he x hx), hrest⟩
  · intro c n stack tr _ _ hc
    exact reads_of_isEvent (isEvent_of_enters hc)

/-! ## The requests of a run -/

section Requests

variable {N : Nat} {i : Fin N} {ch : NetworkChoice} {tr tr' : NetworkTrace N} {q : SentRequest N}

/-- A step makes no request, or one: a live node sends a message without a tag. -/
theorem requests_cons (e : NetworkCall N × NetworkChoice) (tr : NetworkTrace N) : requests (e :: tr) = requests tr ∨
    ∃ i m cb mr t ch, e = (.app i (.base (.send m cb mr t)), ch) ∧ m.tag = 0 ∧ (∀ e ∈ tr, e.1 ≠ .app i (.base .die)) ∧
      requests (e :: tr) = ⟨i, m.tagged ch.tag, cb, mr⟩ :: requests tr := by
  rw [requests.eq_def]
  split
  · rename_i heq
    cases heq
  · rename_i heq
    cases heq
    split
    · rename_i h
      exact Or.inr ⟨_, _, _, _, _, _, rfl, h.1, h.2, rfl⟩
    · exact Or.inl rfl
  · rename_i heq
    cases heq
    exact Or.inl rfl

theorem requests_send {m : Message UInt32} {cb : CallbackSet SendFn} {mr : UInt32} {t : UInt64} (ht : m.tag = 0)
    (hlive : ∀ e ∈ tr, e.1 ≠ .app i (.base .die)) : requests ((.app i (.base (.send m cb mr t)), ch) :: tr) =
      ⟨i, m.tagged ch.tag, cb, mr⟩ :: requests tr := by
  rw [requests, if_pos ⟨ht, hlive⟩]

theorem requests_subset_cons (e : NetworkCall N × NetworkChoice) (tr : NetworkTrace N) : requests tr ⊆ requests (e :: tr) := by
  rcases requests_cons e tr with he | ⟨i, m, cb, mr, t, ch, -, -, -, he⟩
  · exact fun q hq => he ▸ hq
  · exact fun q hq => he ▸ List.mem_cons_of_mem _ hq

theorem requests_subset (h : tr <:+ tr') : requests tr ⊆ requests tr' := by
  obtain ⟨new, rfl⟩ := h
  induction new with
  | nil => exact List.Subset.refl _
  | cons e new ih => exact List.Subset.trans ih (requests_subset_cons e (new ++ tr))

/-- The tag of a request is one that the requester drew. -/
theorem tag_drawn (hq : q ∈ requests tr) : q.message.tag ∈ drawnTags (tr.flatMap (runsIn q.requester)) := by
  induction tr with
  | nil => cases hq
  | cons e tr ih =>
    have hsub : drawnTags (tr.flatMap (runsIn q.requester)) ⊆ drawnTags ((e :: tr).flatMap (runsIn q.requester)) := by
      rw [List.flatMap_cons]
      generalize runsIn q.requester e = new
      induction new with
      | nil => exact List.Subset.refl _
      | cons d new ih => exact List.Subset.trans ih (drawnTags_subset d _)
    rcases requests_cons e tr with he | ⟨i, m, cb, mr, t, ch, rfl, ht, hlive, he⟩
    · rw [he] at hq
      exact hsub (ih hq)
    · rw [he] at hq
      rcases List.mem_cons.1 hq with rfl | hq
      · have hruns : runsIn i (NetworkCall.app i (.base (.send m cb mr t)), ch) =
            [(.base (.send m cb mr t), ch.toChoice)] := if_pos rfl
        rw [List.flatMap_cons, hruns, List.singleton_append, drawnTags, if_pos ⟨ht, runsIn_ne_die.2 hlive⟩]
        simp [Message.tagged, ht]
      · exact hsub (ih hq)

end Requests

/-! ## Traffic -/

variable {N : Nat} {Γ : Ctx} {config : Fin N → Config} {key : Fin N → KademliaKey} {offset : Fin N → Time} {limit : UInt32}
  {ok : NetworkConfig N → NetworkLabel N → Prop} {m₀ m m' : NetworkConfig N} {msg : Message UInt32} {i : Fin N}

/-- At an earlier point of the run node `j`, which handled the message `req`, answered it with `msg`. -/
def AnsweredBy (Γ : Ctx) (ok : NetworkConfig N → NetworkLabel N → Prop) (m₀ m : NetworkConfig N) (j : Fin N)
    (req msg : Message UInt32) : Prop :=
  ∃ m₁ c rest, Run (networkProgram Γ N) ok m₀ m₁ ∧ Run (networkProgram Γ N) ok m₁ m ∧ m₁.stack = .app j c :: rest ∧
    Answers Γ (m₁.state.applications j) c req msg

/-- Where a message comes from: it is a copy of a request, or some node answered a copy of a request with it. -/
inductive Traffic (Γ : Ctx) (ok : NetworkConfig N → NetworkLabel N → Prop) (m₀ m : NetworkConfig N)
    (msg : Message UInt32) : Prop where
  | request (q : SentRequest N) (hq : q ∈ requests m.trace) (heq : msg = q.message)
  | answer (q : SentRequest N) (hq : q ∈ requests m.trace) (j : Fin N) (h : AnsweredBy Γ ok m₀ m j q.message msg)

/-- A request is that of a node of the given key, its tag is not zero, and its callbacks are those made for it. -/
structure SentRequest.Valid (Γ : Ctx) (key : Fin N → KademliaKey) (q : SentRequest N) : Prop where
  tag : q.message.tag ≠ 0
  requested : Requested Γ (key q.requester) q.message
  callback : q.callback = .empty ∨ IsRequest Γ (key q.requester) q.message q.callback

/-- What is known of the messages of a network. -/
structure TrafficState (Γ : Ctx) (key : Fin N → KademliaKey) (ok : NetworkConfig N → NetworkLabel N → Prop)
    (m₀ m : NetworkConfig N) : Prop where
  valid : ∀ q ∈ requests m.trace, q.Valid Γ key
  distinct : ((requests m.trace).map (·.message.tag)).Nodup
  nodes : ∀ i, ∀ msg ∈ (m.state.applications i).messages, Traffic Γ ok m₀ m msg
  records : ∀ i tag r, (tag, r) ∈ (m.state.applications i).callbacks.entries → ∃ q ∈ requests m.trace,
    q.requester = i ∧ q.message = r.message ∧ q.callback = r.callback ∧ q.message.tag = tag
  /-- A call carries such a message, or is about to send a request. -/
  stack : ∀ x ∈ m.stack, ∀ msg, x.carries = some msg → Traffic Γ ok m₀ m msg ∨
    ∃ i cb mr t, x = .app i (.base (.send msg cb mr t)) ∧ msg.tag = 0 ∧ Requested Γ (key i) msg

theorem AnsweredBy.mono {j : Fin N} {req : Message UInt32} (h : AnsweredBy Γ ok m₀ m j req msg)
    (hr : Run (networkProgram Γ N) ok m m') : AnsweredBy Γ ok m₀ m' j req msg := by
  obtain ⟨m₁, c, rest, h₀, h₁, hstack, ha⟩ := h
  exact ⟨m₁, c, rest, h₀, h₁.trans hr, hstack, ha⟩

theorem AnsweredBy.imp {ok' : NetworkConfig N → NetworkLabel N → Prop} (hok : ∀ m l, ok m l → ok' m l) {j : Fin N}
    {req msg : Message UInt32} (h : AnsweredBy Γ ok m₀ m j req msg) : AnsweredBy Γ ok' m₀ m j req msg := by
  obtain ⟨m₁, c, rest, h₀, h₁, hstack, ha⟩ := h
  exact ⟨m₁, c, rest, h₀.mono hok, h₁.mono hok, hstack, ha⟩

theorem Traffic.mono (h : Traffic Γ ok m₀ m msg) (hr : Run (networkProgram Γ N) ok m m') : Traffic Γ ok m₀ m' msg := by
  have hsub := requests_subset hr.trace_suffix
  cases h with
  | request q hq heq => exact .request q (hsub hq) heq
  | answer q hq j ha => exact .answer q (hsub hq) j (ha.mono hr)

theorem Traffic.tag_ne (h : Traffic Γ ok m₀ m msg) (hvalid : ∀ q ∈ requests m.trace, q.Valid Γ key) : msg.tag ≠ 0 := by
  cases h with
  | request q hq heq => exact heq ▸ (hvalid q hq).tag
  | answer q hq j ha =>
    obtain ⟨m₁, c, rest, -, -, -, ha⟩ := ha
    rw [answer_tag ha]
    exact (hvalid q hq).tag

/-- A message that is not an answer is a copy of a request. -/
theorem Traffic.request_of_not_isAnswer (h : Traffic Γ ok (startNetwork config key offset limit) m msg)
    (hna : ¬ IsAnswer Γ msg) : ∃ q ∈ requests m.trace, msg = q.message := by
  cases h with
  | request q hq heq => exact ⟨q, hq, heq⟩
  | answer q hq j ha =>
    obtain ⟨m₁, c, rest, h₀, -, hstack, ha⟩ := ha
    refine absurd (isAnswer_of_answers ?_ ha) hna
    refine reads_of_run (run_node h₀ j) c ?_
    rw [nodeConfig, hstack, List.flatMap_cons, NetworkCall.within_app_self]
    exact List.mem_cons_self

/-- What comes in carries no message. -/
theorem carries_of_enters {x : NetworkCall N} (h : (networkProgram Γ N).event x = true ∨ (networkProgram Γ N).reentry x = true) :
    x.carries = none := by
  cases x with
  | app i c =>
    cases c with
    | base b =>
      rcases h with h | h
      · have hdie : (Call.base b) = .base .die := by
          have h : ((Call.base b).isPublic || decide (Call.base b = .base .die)) = true := h
          rcases Bool.or_eq_true_iff.1 h with h | h
          · cases h
          · exact of_decide_eq_true h
        cases hdie
        rfl
      · cases h
    | dispatch m => rcases h with h | h <;> cases h
    | handleFindNodes m fm => rcases h with h | h <;> cases h
    | handleStore m sm => rcases h with h | h <;> cases h
    | _ => rfl
  | call i c => rcases h with h | h <;> cases h
  | passAlongMessage m => rcases h with h | h <;> cases h
  | _ => rfl

/-! ## A step -/

section Step

variable {w w' : CentralizedNetwork N} {x : NetworkCall N} {rest cs : List (NetworkCall N)} {tr : NetworkTrace N}
  {ch : NetworkChoice}

/-- A tag that is drawn is that of no request. -/
theorem fresh_tag {c : Message UInt32} {cb : CallbackSet SendFn} {mr : UInt32} {t : UInt64}
    (hfresh : freshNetworkTags ⟨w, .app i (.base (.send c cb mr t)) :: rest, tr⟩ (.run ch) = true) (ht : c.tag = 0)
    (hlive : (w.applications i).dead = false) : ch.tag ≠ 0 ∧ ∀ q ∈ requests tr, q.message.tag ≠ ch.tag := by
  simp only [freshNetworkTags, ht, hlive, ne_eq, not_true_eq_false, decide_false, Bool.false_or, Bool.and_eq_true,
    decide_eq_true_eq, List.all_eq_true] at hfresh
  refine ⟨hfresh.1, fun q hq heq => hfresh.2 q.requester (List.mem_finRange _) ?_⟩
  rw [← heq]
  exact tag_drawn hq

/-- What a call sends is known, or is a request that it makes. -/
theorem send_cases {m : Message UInt32} {cb : CallbackSet SendFn} {mr : UInt32} {t : UInt64}
    (hI : TrafficState Γ key ok m₀ ⟨w, .app i (.base (.send m cb mr t)) :: rest, tr⟩) :
    (Traffic Γ ok m₀ ⟨w, .app i (.base (.send m cb mr t)) :: rest, tr⟩ m ∧ m.tag ≠ 0) ∨
      (m.tag = 0 ∧ Requested Γ (key i) m) := by
  rcases hI.stack _ List.mem_cons_self m rfl with h | ⟨i, cb, mr, t, heq, ht, hreq⟩
  · exact Or.inl ⟨h, h.tag_ne hI.valid⟩
  · cases heq
    exact Or.inr ⟨ht, hreq⟩

/-- The requests after a step are valid, and their tags differ. -/
theorem requests_step (hr : Run (networkProgram Γ N) ok (startNetwork config key offset limit) ⟨w, x :: rest, tr⟩)
    (hfresh : freshNetworkTags ⟨w, x :: rest, tr⟩ (.run ch) = true)
    (hI : TrafficState Γ key ok m₀ ⟨w, x :: rest, tr⟩) :
    (∀ q ∈ requests ((x, ch) :: tr), q.Valid Γ key) ∧ ((requests ((x, ch) :: tr)).map (·.message.tag)).Nodup := by
  rcases requests_cons (x, ch) tr with he | ⟨i, m, cb, mr, t, ch', heq, ht, hlive, he⟩
  · rw [he]
    exact ⟨hI.valid, hI.distinct⟩
  · cases heq
    have hlive : (w.applications i).dead = false := (live_iff hr i).2 hlive
    obtain ⟨hne, hnew⟩ := fresh_tag hfresh ht hlive
    have htag : (m.tagged ch.tag).tag = ch.tag := by simp [Message.tagged, ht]
    rw [he]
    refine ⟨fun q hq => ?_, List.nodup_cons.2 ⟨fun hmem => ?_, hI.distinct⟩⟩
    · rcases List.mem_cons.1 hq with rfl | hq
      · have hreq : Requested Γ (key i) m := by
          rcases send_cases hI with ⟨-, hne⟩ | ⟨-, hreq⟩
          · exact absurd ht hne
          · exact hreq
        refine ⟨fun h => hne (htag.symm.trans h), hreq.tagged ch.tag, ?_⟩
        rcases (fromRequests_of_run (run_node hr i)).2 _ (mem_stack_nodeConfig List.mem_cons_self) with rfl | ⟨hreq, -⟩
        · exact Or.inl rfl
        · exact Or.inr (hreq.tagged ch.tag)
      · exact hI.valid q hq
    · obtain ⟨q, hq, heq⟩ := List.mem_map.1 hmem
      exact hnew q hq (heq.trans htag)

/-- What a live node sends is in circulation. -/
theorem traffic_send {m : Message UInt32} {cb : CallbackSet SendFn} {mr : UInt32} {t : UInt64}
    (hr : Run (networkProgram Γ N) ok (startNetwork config key offset limit) ⟨w, .app i (.base (.send m cb mr t)) :: rest, tr⟩)
    (hI : TrafficState Γ key ok m₀ ⟨w, .app i (.base (.send m cb mr t)) :: rest, tr⟩)
    (hstep : Run (networkProgram Γ N) ok ⟨w, .app i (.base (.send m cb mr t)) :: rest, tr⟩
      ⟨w', cs ++ rest, (.app i (.base (.send m cb mr t)), ch) :: tr⟩) (hlive : (w.applications i).dead = false) :
    Traffic Γ ok m₀ ⟨w', cs ++ rest, (.app i (.base (.send m cb mr t)), ch) :: tr⟩ (m.tagged ch.tag) := by
  rcases send_cases hI with ⟨h, hne⟩ | ⟨ht, -⟩
  · rw [tagged_of_ne hne]
    exact h.mono hstep
  · refine .request ⟨i, m.tagged ch.tag, cb, mr⟩ ?_ rfl
    rw [requests_send ht ((live_iff hr i).1 hlive)]
    exact List.mem_cons_self

/-- The messages that the nodes have after a step are known. -/
theorem nodes_step (hr : Run (networkProgram Γ N) ok (startNetwork config key offset limit) ⟨w, x :: rest, tr⟩)
    (hI : TrafficState Γ key ok m₀ ⟨w, x :: rest, tr⟩) (he : CentralizedNetwork.exec Γ ch x w = some (w', cs))
    (hstep : Run (networkProgram Γ N) ok ⟨w, x :: rest, tr⟩ ⟨w', cs ++ rest, (x, ch) :: tr⟩) :
    ∀ i, ∀ msg ∈ (w'.applications i).messages, Traffic Γ ok m₀ ⟨w', cs ++ rest, (x, ch) :: tr⟩ msg := by
  intro i msg hmsg
  have hold : ∀ j, msg ∈ (w.applications j).messages → Traffic Γ ok m₀ ⟨w', cs ++ rest, (x, ch) :: tr⟩ msg :=
    fun j h => (hI.nodes j msg h).mono hstep
  rcases CentralizedNetwork.applications_cases he i with h | ⟨c, q, rfl, h, hi⟩ | ⟨total, rfl, hi⟩ | ⟨a, rfl, hi⟩
  · exact hold i (h ▸ hmsg)
  · have htags : ∀ tag r, (tag, r) ∈ (w.applications i).callbacks.entries → r.message.tag ≠ 0 := by
      intro tag r hrec
      obtain ⟨q, hq, -, hmsg, -⟩ := hI.records i tag r hrec
      exact hmsg ▸ (hI.valid q hq).tag
    rw [hi] at hmsg
    rcases exec_messages h htags hmsg with hmsg | rfl | ⟨m, cb, mr, t, rfl, hlive, rfl⟩
    · exact hold i hmsg
    · rcases hI.stack _ List.mem_cons_self msg rfl with h | ⟨_, _, _, _, heq, -⟩
      · exact h.mono hstep
      · cases heq
    · exact traffic_send hr hI hstep hlive
  · rw [hi] at hmsg
    rcases mem_messages.1 hmsg with h | h | h
    · exact hold i (mem_messages.2 (Or.inl h))
    · exact hold i (mem_messages.2 (Or.inr (Or.inl (List.mem_of_mem_tail h))))
    · exact hold i (mem_messages.2 (Or.inr (Or.inr h)))
  · rw [hi] at hmsg
    exact hold i hmsg

/-- The records after a step are those of requests. -/
theorem records_step (hr : Run (networkProgram Γ N) ok (startNetwork config key offset limit) ⟨w, x :: rest, tr⟩)
    (hI : TrafficState Γ key ok m₀ ⟨w, x :: rest, tr⟩) (he : CentralizedNetwork.exec Γ ch x w = some (w', cs)) :
    ∀ i tag r, (tag, r) ∈ (w'.applications i).callbacks.entries → ∃ q ∈ requests ((x, ch) :: tr),
      q.requester = i ∧ q.message = r.message ∧ q.callback = r.callback ∧ q.message.tag = tag := by
  intro i tag r hrec
  have hold : ∀ r', (tag, r') ∈ (w.applications i).callbacks.entries → r.message = r'.message → r.callback = r'.callback →
      ∃ q ∈ requests ((x, ch) :: tr), q.requester = i ∧ q.message = r.message ∧ q.callback = r.callback ∧
        q.message.tag = tag := by
    intro r' h hmsg hcb
    obtain ⟨q, hq, hi, hm, hc, ht⟩ := hI.records i tag r' h
    exact ⟨q, requests_subset_cons _ _ hq, hi, hm.trans hmsg.symm, hc.trans hcb.symm, ht⟩
  rcases CentralizedNetwork.applications_cases he i with h | ⟨c, q, rfl, h, hi⟩ | ⟨total, rfl, hi⟩ | ⟨a, rfl, hi⟩
  · exact hold r (h ▸ hrec) rfl rfl
  · rw [hi] at hrec
    rcases exec_record h hrec with ⟨r', hr', hmsg, hcb⟩ | ⟨m, mr, t, rfl, hlive, hne, rfl, hmsg⟩
    · exact hold r' hr' hmsg hcb
    · -- a record is made for a message with callbacks, whose tag is drawn
      have ht : m.tag = 0 := by
        rcases (fromRequests_of_run (run_node hr i)).2 _ (mem_stack_nodeConfig List.mem_cons_self) with hcb | ⟨-, ht⟩
        · rw [hcb] at hne
          cases hne
        · exact ht
      rw [requests_send ht ((live_iff hr i).1 hlive)]
      exact ⟨_, List.mem_cons_self, rfl, hmsg.symm, rfl, rfl⟩
  · rw [hi] at hrec
    exact hold r hrec rfl rfl
  · rw [hi] at hrec
    exact hold r hrec rfl rfl

/-- What is answered is a copy of a request. -/
theorem request_of_answers (hΓ : Γ.Decodes) (h : Run (networkProgram Γ N) ok (startNetwork config key offset limit) m)
    (hI : TrafficState Γ key ok (startNetwork config key offset limit) m) {c : Call} {req : Message UInt32}
    (hmem : .app i c ∈ m.stack) (ha : Answers Γ (m.state.applications i) c req msg) : ∃ q ∈ requests m.trace, req = q.message := by
  have hreads : c.Reads Γ := reads_of_run (run_node h i) c (mem_stack_nodeConfig hmem)
  have hcarries : c.carries = some req := by cases ha <;> rfl
  rcases hI.stack _ hmem req hcarries with ht | ⟨_, _, _, _, heq, -⟩
  · exact ht.request_of_not_isAnswer (not_isAnswer_of_answers hΓ hreads ha)
  · cases heq
    cases ha

/-- The calls that a call makes carry known messages, or are about to send a request. -/
theorem stack_step (hΓ : Γ.Decodes)
    (hr : Run (networkProgram Γ N) ok (startNetwork config key offset limit) ⟨w, x :: rest, tr⟩)
    (hI : TrafficState Γ key ok (startNetwork config key offset limit) ⟨w, x :: rest, tr⟩)
    (he : CentralizedNetwork.exec Γ ch x w = some (w', cs))
    (hstep : Run (networkProgram Γ N) ok ⟨w, x :: rest, tr⟩ ⟨w', cs ++ rest, (x, ch) :: tr⟩) :
    ∀ y ∈ cs, ∀ msg, y.carries = some msg →
      Traffic Γ ok (startNetwork config key offset limit) ⟨w', cs ++ rest, (x, ch) :: tr⟩ msg ∨
        ∃ i cb mr t, y = .app i (.base (.send msg cb mr t)) ∧ msg.tag = 0 ∧ Requested Γ (key i) msg := by
  intro y hy msg hmsg
  have hheld : ∀ j, msg ∈ (w.applications j).messages →
      Traffic Γ ok (startNetwork config key offset limit) ⟨w', cs ++ rest, (x, ch) :: tr⟩ msg :=
    fun j h => (hI.nodes j msg h).mono hstep
  have hcarried : x.carries = some msg → (∀ i cb mr t, x ≠ .app i (.base (.send msg cb mr t))) →
      Traffic Γ ok (startNetwork config key offset limit) ⟨w', cs ++ rest, (x, ch) :: tr⟩ msg := by
    intro h hne
    rcases hI.stack x List.mem_cons_self msg h with h | ⟨i, cb, mr, t, heq, -⟩
    · exact h.mono hstep
    · exact absurd heq (hne i cb mr t)
  cases CentralizedNetwork.exec_makes he y hy with
  | @inside i c z h =>
    rcases makes_carries h hmsg with ⟨hc, hne⟩ | ⟨-, hin⟩ | ⟨cb, mr, t, rfl, ht, -, hreq⟩ | ⟨req, rfl, ha⟩
    · exact Or.inl (hcarried hc (by
        intro i' cb mr t heq
        cases heq
        exact hne cb mr t rfl))
    · exact Or.inl (hheld i (mem_messages.2 (Or.inl hin)))
    · exact Or.inr ⟨i, cb, mr, t, rfl, ht, key_of_run hr i ▸ hreq⟩
    · obtain ⟨q, hq, rfl⟩ := request_of_answers hΓ hr hI List.mem_cons_self ha
      exact Or.inl (.answer q (requests_subset_cons _ _ hq) i ⟨_, c, rest, hr, hstep, rfl, ha⟩)
  | handOn => exact Or.inl (hcarried hmsg (by simp))
  | sendAgain hq hlimit =>
    cases hmsg
    exact Or.inl (hheld _ (mem_messages.2 (Or.inr (Or.inl (hq ▸ List.mem_cons_self)))))
  | passAlong hq =>
    cases hmsg
    exact Or.inl (hheld _ (mem_messages.2 (Or.inr (Or.inl (hq ▸ List.mem_cons_self)))))
  | recv hf => cases hmsg; exact Or.inl (hcarried rfl (by simp))
  | _ => cases hmsg

end Step

/-- In every reachable configuration of a network every message is accounted for. -/
theorem trafficState_of_run (hΓ : Γ.Decodes) (hok : ∀ m l, ok m l → freshNetworkTags m l = true)
    (h : Run (networkProgram Γ N) ok (startNetwork config key offset limit) m) :
    TrafficState Γ key ok (startNetwork config key offset limit) m := by
  refine h.invariant (I := TrafficState Γ key ok (startNetwork config key offset limit))
    ⟨by simp [startNetwork, requests], by simp [startNetwork, requests], ?_, ?_, by simp [startNetwork]⟩ ?_
  · intro i msg hmsg
    simp [startNetwork, CentralizedNetwork.init, KademliaNode.init, KademliaNode.messages] at hmsg
  · intro i tag r hrec
    simp [startNetwork, CentralizedNetwork.init, KademliaNode.init] at hrec
  · intro m l m' hr hI hl hs
    have hstep : Run (networkProgram Γ N) ok m m' := Run.refl.step hl hs.step_eq
    cases hs with
    | @run ch x rest w tr w' cs hw he =>
      obtain ⟨hvalid, hdistinct⟩ := requests_step hr (hok _ _ hl) hI
      refine ⟨hvalid, hdistinct, nodes_step hr hI he hstep, records_step hr hI he, fun y hy msg hmsg => ?_⟩
      rcases List.mem_append.1 hy with hy | hy
      · exact stack_step hΓ hr hI he hstep y hy msg hmsg
      · rcases hI.stack y (List.mem_cons_of_mem _ hy) msg hmsg with h | h
        · exact Or.inl (h.mono hstep)
        · exact Or.inr h
    | @event x w tr hx =>
      refine ⟨hI.valid, hI.distinct, fun i msg hmsg => (hI.nodes i msg hmsg).mono hstep, hI.records, fun y hy msg hmsg => ?_⟩
      rw [List.mem_singleton.1 hy, carries_of_enters (Or.inl hx)] at hmsg
      cases hmsg
    | @reentry x f rest w tr hf hx =>
      refine ⟨hI.valid, hI.distinct, fun i msg hmsg => (hI.nodes i msg hmsg).mono hstep, hI.records, fun y hy msg hmsg => ?_⟩
      rcases List.mem_cons.1 hy with rfl | hy
      · rw [carries_of_enters (Or.inr hx)] at hmsg
        cases hmsg
      · rcases hI.stack y hy msg hmsg with h | h
        · exact Or.inl (h.mono hstep)
        · exact Or.inr h
    | @leave f rest w tr hf =>
      refine ⟨hI.valid, hI.distinct, fun i msg hmsg => (hI.nodes i msg hmsg).mono hstep, hI.records, fun y hy msg hmsg => ?_⟩
      rcases hI.stack y (List.mem_cons_of_mem _ hy) msg hmsg with h | h
      · exact Or.inl (h.mono hstep)
      · exact Or.inr h

/-- Two requests of one tag are one request. -/
theorem TrafficState.eq_of_tag {q q' : SentRequest N} (h : TrafficState Γ key ok m₀ m) (hq : q ∈ requests m.trace)
    (hq' : q' ∈ requests m.trace) (htag : q.message.tag = q'.message.tag) : q = q' :=
  List.inj_on_of_nodup_map h.distinct hq hq' htag

/-- A message with a tag that a call carried when it ran is in circulation. -/
theorem traffic_of_trace (hΓ : Γ.Decodes) (hok : ∀ m l, ok m l → freshNetworkTags m l = true)
    (h : Run (networkProgram Γ N) ok (startNetwork config key offset limit) m) :
    ∀ e ∈ m.trace, e.1.carries = some msg → msg.tag ≠ 0 → Traffic Γ ok (startNetwork config key offset limit) m msg := by
  refine h.invariant (I := fun m => ∀ e ∈ m.trace, e.1.carries = some msg → msg.tag ≠ 0 →
    Traffic Γ ok (startNetwork config key offset limit) m msg) (by simp [startNetwork]) ?_
  intro m l m' hr hI hl hs e he hmsg ht
  have hstep : Run (networkProgram Γ N) ok m m' := Run.refl.step hl hs.step_eq
  cases hs with
  | @run ch x rest w tr w' cs hw hx =>
    rcases List.mem_cons.1 he with rfl | he
    · rcases (trafficState_of_run hΓ hok hr).stack x List.mem_cons_self msg hmsg with h | ⟨_, _, _, _, -, ht', -⟩
      · exact h.mono hstep
      · exact absurd ht' ht
    · exact (hI e he hmsg ht).mono hstep
  | _ => exact (hI e he hmsg ht).mono hstep

/-- A success that runs is that of a request with the tag of the message that runs it. -/
theorem success_of_run (hΓ : Γ.Decodes) (hok : ∀ m l, ok m l → freshNetworkTags m l = true)
    (h : Run (networkProgram Γ N) ok (startNetwork config key offset limit) m) {fn : SendFn}
    (hmem : .app i (.base (.callback true fn msg)) ∈ m.stack) : ∃ q ∈ requests m.trace,
      q.requester = i ∧ fn ∈ q.callback.successFns ∧ q.message.tag = msg.tag := by
  refine inside_of_run (C := fun m i c => ∀ fn msg, c = .base (.callback true fn msg) → ∃ q ∈ requests m.trace,
    q.requester = i ∧ fn ∈ q.callback.successFns ∧ q.message.tag = msg.tag) h ?_ ?_ ?_ i _ hmem fn msg rfl
  · intro m m' i c hr hC fn msg hc
    obtain ⟨q, hq, h⟩ := hC fn msg hc
    exact ⟨q, requests_subset hr.trace_suffix hq, h⟩
  · rintro m i c hc fn msg rfl
    cases hc
  · rintro m i c z rest ch hr hstack hz fn msg rfl
    cases hz with
    | resolve hf hfn =>
      obtain ⟨q, hq, hi, -, hcb, htag⟩ :=
        (trafficState_of_run hΓ hok hr).records i _ _ (SortedMap.find?_eq_some_iff.1 hf)
      exact ⟨q, hq, hi, hcb ▸ hfn, htag⟩

/-- What is given to a lookup as a reply is a copy of its request, or the answer of a node that handled a copy. -/
theorem reply_of_callback (hΓ : Γ.Decodes) (hok : ∀ m l, ok m l → freshNetworkTags m l = true)
    (h : Run (networkProgram Γ N) ok (startNetwork config key offset limit) m) {t : KademliaKey} {top : BucketEntry}
    (hmem : .app i (.base (.callback true (.findSuccess t top) msg)) ∈ m.stack) :
    ∃ q ∈ requests m.trace, q.requester = i ∧ ∃ req : FindNodesMessage, req.target = t ∧ req.sender = key i ∧
      req.request = true ∧ req.nearest = [] ∧ req.valueFound = false ∧ (∀ ch, readFindNodes Γ ch q.message = req) ∧
        (msg = q.message ∨ ∃ j m₁ rest, Run (networkProgram Γ N) ok (startNetwork config key offset limit) m₁ ∧
          Run (networkProgram Γ N) ok m₁ m ∧ m₁.stack = .app j (.handleFindNodes q.message req) :: rest ∧
            msg = (m₁.state.applications j).findNodesReplyTo Γ q.message req) := by
  have hI := trafficState_of_run hΓ hok h
  obtain ⟨q, hq, rfl, hfn, htag⟩ := success_of_run hΓ hok h hmem
  -- the request of the lookup is one for the target
  obtain ⟨fv, htype, hdata⟩ : ∃ fv, q.message.type = MessageType.findNodes.code ∧
      q.message.data = Γ.findNodes.write ⟨key q.requester, true, fv, t, 0, [], false, []⟩ := by
    rcases (hI.valid q hq).callback with hcb | hreq
    · rw [hcb] at hfn
      cases hfn
    · generalize q.callback = cb at hfn hreq
      cases hreq with
      | ping cb htype hdata => cases List.mem_singleton.1 hfn
      | find t' top' fv htype hdest hdata =>
        cases List.mem_singleton.1 hfn
        exact ⟨fv, htype, hdata⟩
  have hread : ∀ ch, readFindNodes Γ ch q.message = ⟨key q.requester, true, fv, t, 0, [], false, []⟩ := by
    intro ch
    rw [readFindNodes, hdata, hΓ.findNodes]
  refine ⟨q, hq, rfl, _, rfl, rfl, rfl, rfl, rfl, hread, ?_⟩
  have htraffic : Traffic Γ ok (startNetwork config key offset limit) m msg := by
    rcases hI.stack _ hmem msg rfl with h | ⟨_, _, _, _, heq, -⟩
    · exact h
    · cases heq
  cases htraffic with
  | request q' hq' heq =>
    subst heq
    exact Or.inl (congrArg SentRequest.message (hI.eq_of_tag hq hq' htag).symm)
  | answer q' hq' j ha =>
    obtain ⟨m₁, c, rest, h₁, h₂, hstack, ha⟩ := ha
    obtain rfl := hI.eq_of_tag hq hq' (htag.trans (answer_tag ha))
    have hreads : c.Reads Γ := reads_of_run (run_node h₁ j) c (mem_stack_nodeConfig (hstack ▸ List.mem_cons_self))
    have htypeof : MessageType.ofCode q.message.type = some .findNodes := by
      rw [htype]
      rfl
    generalize hreq : q.message = req at ha
    cases ha with
    | pong ht hp => rw [← hreq, htypeof] at ht; cases ht
    | @found _ fm hr =>
      obtain ⟨-, ch, rfl⟩ := hreads
      have hfm : readFindNodes Γ ch req = ⟨key q.requester, true, fv, t, 0, [], false, []⟩ := hreq ▸ hread ch
      rw [hfm] at hstack ⊢
      exact Or.inr ⟨j, m₁, rest, h₁, h₂, hstack, rfl⟩
    | stored =>
      have ht := hreads.1
      rw [← hreq, htypeof] at ht
      cases ht

end Dhtsim
