import Dhtsim.Lemmas.Copies
import Dhtsim.Lemmas.Honesty
import Dhtsim.Model.Outside

/-!
# Requests and replies

A message is matched to a request by its tag alone. In a network that is used properly this is enough: whatever carries the tag of
a request is a copy of it on its way to another node, or the reply of that node.
-/

namespace Dhtsim

open CallMachine KademliaNode

/-- A reply to a request: the answer of the node at its destination, which goes back to the requester. -/
structure IsReply {N : Nat} (Γ : Ctx) (ok : NetworkConfig N → NetworkLabel N → Prop) (m₀ m : NetworkConfig N)
    (q : SentRequest N) (msg : Message UInt32) : Prop where
  tag : msg.tag = q.message.tag
  originator : msg.originator = q.message.destination
  destination : msg.destination = q.message.originator
  answered : ∃ j, addressOf m j = q.message.destination ∧ AnsweredBy Γ ok m₀ m j q.message msg

/-- The message is or was somewhere in the network: a node has it, or a call carries it or carried it when it ran. -/
def Occurs {N : Nat} (m : NetworkConfig N) (msg : Message UInt32) : Prop :=
  (∃ i, msg ∈ (m.state.applications i).messages) ∨ (∃ x ∈ m.stack, x.carries = some msg) ∨
    ∃ e ∈ m.trace, e.1.carries = some msg

/-- A network is used as its nodes expect. -/
def properNetwork {N : Nat} (m : NetworkConfig N) (l : NetworkLabel N) : Bool := freshNetworkTags m l && properUse m l

namespace CorrelationAux

open HonestyAux

variable {N : Nat} {Γ : Ctx} {config : Fin N → Config} {key : Fin N → KademliaKey} {offset : Fin N → Time} {limit : UInt32}
  {ok : NetworkConfig N → NetworkLabel N → Prop} {m : NetworkConfig N} {q : SentRequest N} {msg : Message UInt32} {i : Fin N}

/-- There is one request of each tag. -/
theorem countP_requests (hT : TrafficState Γ key ok (startNetwork config key offset limit) m) (hq : q ∈ requests m.trace)
    {p : Message UInt32 → Bool} (hp : ∀ msg, p msg = true → msg.tag = q.message.tag) :
    (requests m.trace).countP (fun q' => p q'.message) ≤ if p q.message then 1 else 0 := by
  rw [List.countP_eq_length_filter]
  have hnodup : ((requests m.trace).filter (fun q' => p q'.message)).Nodup := (List.Nodup.of_map _ hT.distinct).filter _
  have heq : ∀ q' ∈ (requests m.trace).filter (fun q' => p q'.message), q' = q ∧ p q.message = true := by
    intro q' hq'
    obtain ⟨hq', hpq⟩ := List.mem_filter.1 hq'
    obtain rfl := hT.eq_of_tag hq' hq (hp _ hpq)
    exact ⟨rfl, hpq⟩
  generalize (requests m.trace).filter (fun q' => p q'.message) = l at hnodup heq
  match l with
  | [] => exact Nat.zero_le _
  | [q'] => simp [(heq q' List.mem_cons_self).2]
  | q₁ :: q₂ :: l =>
    have h₁ := (heq q₁ List.mem_cons_self).1
    have h₂ := (heq q₂ (List.mem_cons_of_mem _ List.mem_cons_self)).1
    refine absurd ?_ (List.nodup_cons.1 hnodup).1
    rw [h₁, ← h₂]
    exact List.mem_cons_self

/-- An answer is not a request. -/
theorem answer_ne_request (hΓ : Γ.Decodes) (hq : q.Valid Γ key)
    (h : Run (networkProgram Γ N) ok (startNetwork config key offset limit) m) {c : Call}
    {req : Message UInt32} (hmem : .app i c ∈ m.stack) (ha : Answers Γ (m.state.applications i) c req msg) :
    msg ≠ q.message := by
  rintro rfl
  have hreads : c.Reads Γ := reads_of_run (run_node h i) c (mem_stack_nodeConfig hmem)
  exact not_isAnswer_of_requested hΓ hq.requested (isAnswer_of_answers hreads ha)

/-- A request is sent once, and again as often as it is tried again. -/
theorem sent_request (hΓ : Γ.Decodes) (hok : ∀ m l, ok m l → freshNetworkTags m l = true)
    (h : Run (networkProgram Γ N) ok (startNetwork config key offset limit) m) (hq : q ∈ requests m.trace) :
    sent (fun msg => decide (msg = q.message)) m ≤ 1 + if q.callback.isEmpty then 0 else q.maxRetries.toNat := by
  have hT := trafficState_of_run hΓ hok h
  have hbound := (retryState_of_run hΓ hok h).bound q hq
  have hsent : sent (fun msg => decide (msg = q.message)) m ≤
      made (fun msg => decide (msg = q.message)) (fun _ => false) q.message.tag m.trace := by
    refine sent_le (fun msg ht => ?_) ?_ ?_ h.leads
    · refine decide_eq_false ?_
      rintro rfl
      exact (hT.valid q hq).tag ht
    · rintro m₁ i t r ch hr ⟨hl, hm⟩ hrec hmsg
      have hT₁ := trafficState_of_run hΓ (fun m l h => hok m l h.1) hr
      obtain ⟨q', hq', -, hmsg', -, rfl⟩ := hT₁.records i t r hrec
      rw [← hmsg', tagged_of_ne (hT₁.valid q' hq').tag] at hmsg
      exact congrArg Message.tag (of_decide_eq_true hmsg)
    · rintro m₁ i c rest req msg ch hr ⟨hl, hm⟩ hstack ha hmsg
      exact absurd (of_decide_eq_true hmsg) (answer_ne_request hΓ (hT.valid q hq) hr (hstack ▸ List.mem_cons_self) ha)
  have hone := countP_requests hT hq (p := fun msg => decide (msg = q.message)) (by simp)
  have hnone : handled (fun _ => false) m.trace = 0 := by
    refine List.countP_eq_zero.2 (fun e _ => ?_)
    split <;> simp
  simp only [made] at hsent
  simp only [decide_true, if_true] at hone
  omega

/-- Of the replies to a request no more are sent than copies of it were handled. -/
theorem sent_replies (hΓ : Γ.Decodes) (hok : ∀ m l, ok m l → freshNetworkTags m l = true)
    (h : Run (networkProgram Γ N) ok (startNetwork config key offset limit) m) (hq : q ∈ requests m.trace) :
    sent (fun msg => decide (msg.tag = q.message.tag ∧ msg ≠ q.message)) m ≤
      handled (fun msg => decide (msg = q.message)) m.trace := by
  have hT := trafficState_of_run hΓ hok h
  -- a tag that no request has is tried again nowhere
  have hnone : retried 0 m.trace = 0 := by
    by_contra hne
    obtain ⟨q', hq', ht⟩ := (retryState_of_run hΓ hok h).drawn 0 hne
    exact (hT.valid q' hq').tag ht
  have hsent : sent (fun msg => decide (msg.tag = q.message.tag ∧ msg ≠ q.message)) m ≤
      made (fun msg => decide (msg.tag = q.message.tag ∧ msg ≠ q.message)) (fun msg => decide (msg = q.message)) 0
        m.trace := by
    have hsame : ∀ {m₁ : NetworkConfig N} {q' : SentRequest N}, Run (networkProgram Γ N) ok m₁ m → q' ∈ requests m₁.trace →
        q'.message.tag = q.message.tag → q' = q :=
      fun hm hq' htag => hT.eq_of_tag (requests_subset hm.trace_suffix hq') hq htag
    refine sent_le (fun msg ht => ?_) ?_ ?_ h.leads
    · refine decide_eq_false ?_
      rintro ⟨htag, -⟩
      exact (hT.valid q hq).tag (htag.symm.trans ht)
    · rintro m₁ i t r ch hr ⟨hl, hm⟩ hrec hmsg
      have hT₁ := trafficState_of_run hΓ (fun m l h => hok m l h.1) hr
      obtain ⟨q', hq', -, hmsg', -, -⟩ := hT₁.records i t r hrec
      rw [← hmsg', tagged_of_ne (hT₁.valid q' hq').tag] at hmsg
      obtain ⟨htag, hne⟩ := of_decide_eq_true hmsg
      exact absurd (congrArg SentRequest.message (hsame hm hq' htag)) hne
    · rintro m₁ i c rest req msg ch hr ⟨hl, hm⟩ hstack ha hmsg
      have hT₁ := trafficState_of_run hΓ (fun m l h => hok m l h.1) hr
      obtain ⟨q', hq', rfl⟩ := request_of_answers hΓ hr hT₁ (hstack ▸ List.mem_cons_self) ha
      obtain ⟨htag, -⟩ := of_decide_eq_true hmsg
      refine decide_eq_true (congrArg SentRequest.message (hsame hm hq' ?_))
      exact (answer_tag ha).symm.trans htag
  have hone := countP_requests hT hq (p := fun msg => decide (msg.tag = q.message.tag ∧ msg ≠ q.message)) (by simp +contextual)
  simp only [made, hnone] at hsent
  simp only [ne_eq, not_true_eq_false, and_false, decide_false, Bool.false_eq_true, if_false] at hone
  simp only [ne_eq] at hsent ⊢
  omega

/-! ## Where messages come from -/

/-- A message that occurs and has a tag is in circulation. -/
theorem traffic_of_occurs (hΓ : Γ.Decodes) (hok : ∀ m l, ok m l → freshNetworkTags m l = true)
    (h : Run (networkProgram Γ N) ok (startNetwork config key offset limit) m) (hmsg : Occurs m msg) (ht : msg.tag ≠ 0) :
    Traffic Γ ok (startNetwork config key offset limit) m msg := by
  have hT := trafficState_of_run hΓ hok h
  rcases hmsg with ⟨i, hi⟩ | ⟨x, hx, hc⟩ | ⟨e, he, hc⟩
  · exact hT.nodes i msg hi
  · rcases hT.stack x hx msg hc with h | ⟨_, _, _, _, -, ht', -⟩
    · exact h
    · exact absurd ht' ht
  · exact traffic_of_trace hΓ hok h e he hc ht

/-- A message in circulation that is not a request is a reply to one. -/
theorem isReply_of_answer (hok : ∀ m l, ok m l → freshNetworkTags m l = true ∧ properUse m l = true)
    (hI : HonestState key m) {j : Fin N}
    (ha : AnsweredBy Γ (fun m l => ok m l ∧ HonestState key m) (startNetwork config key offset limit) m j q.message msg) :
    IsReply Γ ok (startNetwork config key offset limit) m q msg := by
  obtain ⟨hne, hdest, horig⟩ := answeredBy_address hok hI ha
  obtain ⟨m₁, c, rest, -, -, -, hanswer⟩ := id ha
  exact ⟨answer_tag hanswer, horig, answer_destination hanswer, j, hdest.symm, ha.imp (fun _ _ h => h.1)⟩

/-- A success that a node runs is that of a request of the node, and it was replied to. -/
theorem isReply_of_success (hΓ : Γ.Decodes) (hok : ∀ m l, ok m l → freshNetworkTags m l = true ∧ properUse m l = true)
    (h : Run (networkProgram Γ N) ok (startNetwork config key offset limit) m) {fn : SendFn}
    (hmem : .app i (.base (.callback true fn msg)) ∈ m.stack) : ∃ q ∈ requests m.trace, q.requester = i ∧
      fn ∈ q.callback.successFns ∧ IsReply Γ ok (startNetwork config key offset limit) m q msg := by
  obtain ⟨hr, hI⟩ := honestState_of_run hΓ hok h
  have hT := trafficState_of_run hΓ (fun m l h => (hok m l h.1).1) hr
  obtain ⟨q, hq, rfl, hfn, htag⟩ := success_of_run hΓ (fun m l h => (hok m l h).1) h hmem
  refine ⟨q, hq, rfl, hfn, ?_⟩
  have hdest : msg.destination = addressOf m q.requester := (hI.calls _ _ hmem).handles msg rfl (by simp)
  cases traffic_of_carries hok hr hΓ hmem rfl (by simp) with
  | request q' hq' heq =>
    -- a copy of the request would be for another node
    obtain rfl := hT.eq_of_tag hq hq' (heq ▸ htag)
    exact absurd (heq ▸ hdest) (hI.requests q hq).destination
  | answer q' hq' j ha =>
    obtain ⟨m₁, c, rest, -, -, -, hanswer⟩ := id ha
    obtain rfl := hT.eq_of_tag hq hq' (htag.trans (answer_tag hanswer))
    exact isReply_of_answer hok hI ha

/-- A reply is an answer, and no request is. -/
theorem isAnswer_of_isReply (h : IsReply Γ ok (startNetwork config key offset limit) m q msg) : IsAnswer Γ msg := by
  obtain ⟨j, -, m₁, c, rest, h₁, -, hstack, ha⟩ := h.answered
  exact isAnswer_of_answers (reads_of_run (run_node h₁ j) c (mem_stack_nodeConfig (hstack ▸ List.mem_cons_self))) ha

theorem store_callback (hq : q.Valid Γ key) (ht : q.message.type = MessageType.store.code) : q.callback.isEmpty = true := by
  rcases hq.callback with hcb | hreq
  · rw [hcb]
    rfl
  · generalize q.callback = cb at hreq
    cases hreq with
    | ping cb htype hdata => cases htype.symm.trans ht
    | find t top fv htype hdest hdata => cases htype.symm.trans ht

end CorrelationAux

open CorrelationAux HonestyAux

/-- The messages of a network that is used as its nodes expect, in six parts.
1. No two requests have the same tag.
2. A request goes from the address of the node that made it to another.
3. Whatever occurs with a tag is a copy of a request or a reply to it.
4. A request is sent at most once more than it may be tried again, a `STORE` request once, and at most one reply is sent for each
   copy that was handled.
5. What is answered is a copy of a request, never a reply.
6. A success callback runs with a reply to the request it was sent with, never with a request. -/
theorem request_reply_correlation {N : Nat} {Γ : Ctx} (hΓ : Γ.Decodes) {config : Fin N → Config} {key : Fin N → KademliaKey}
    {offset : Fin N → Time} {limit : UInt32} {m : NetworkConfig N}
    (h : Run (networkProgram Γ N) (fun m l => properNetwork m l = true) (startNetwork config key offset limit) m) :
    (∀ q ∈ requests m.trace, ∀ q' ∈ requests m.trace, q'.message.tag = q.message.tag → q' = q) ∧
      (∀ q ∈ requests m.trace, q.message.tag ≠ 0 ∧ addressOf m q.requester ≠ 0 ∧
        q.message.originator = addressOf m q.requester ∧ q.message.destination ≠ addressOf m q.requester) ∧
      (∀ msg, Occurs m msg → msg.tag ≠ 0 → ∃ q ∈ requests m.trace, msg = q.message ∨
        IsReply Γ (fun m l => properNetwork m l = true) (startNetwork config key offset limit) m q msg) ∧
      (∀ q ∈ requests m.trace, sent (fun msg => decide (msg = q.message)) m ≤ q.maxRetries.toNat + 1 ∧
        (q.message.type = MessageType.store.code → sent (fun msg => decide (msg = q.message)) m ≤ 1) ∧
          sent (fun msg => decide (msg.tag = q.message.tag ∧ msg ≠ q.message)) m ≤
            handled (fun msg => decide (msg = q.message)) m.trace) ∧
      (∀ i c rest req msg, m.stack = .app i c :: rest → Answers Γ (m.state.applications i) c req msg →
        (∃ q ∈ requests m.trace, req = q.message) ∧
          ∀ q, ¬ IsReply Γ (fun m l => properNetwork m l = true) (startNetwork config key offset limit) m q req) ∧
      ∀ i fn msg, .app i (.base (.callback true fn msg)) ∈ m.stack → ∃ q ∈ requests m.trace, q.requester = i ∧
        fn ∈ q.callback.successFns ∧
          IsReply Γ (fun m l => properNetwork m l = true) (startNetwork config key offset limit) m q msg ∧
            ∀ q' ∈ requests m.trace, msg ≠ q'.message := by
  have hok : ∀ (m : NetworkConfig N) l, properNetwork m l = true → freshNetworkTags m l = true ∧ properUse m l = true :=
    fun m l hl => Bool.and_eq_true_iff.1 hl
  have hfresh : ∀ (m : NetworkConfig N) l, properNetwork m l = true → freshNetworkTags m l = true := fun m l hl => (hok m l hl).1
  obtain ⟨hr, hI⟩ := honestState_of_run hΓ hok h
  have hT := trafficState_of_run hΓ hfresh h
  have hno : ∀ q ∈ requests m.trace, ¬ IsAnswer Γ q.message :=
    fun q hq => not_isAnswer_of_requested hΓ (hT.valid q hq).requested
  refine ⟨fun q hq q' hq' htag => hT.eq_of_tag hq' hq htag, fun q hq => ?_, fun msg hmsg ht => ?_, fun q hq => ?_, ?_, ?_⟩
  · have haddressed := hI.requests q hq
    exact ⟨(hT.valid q hq).tag, haddressed.address, haddressed.originator, haddressed.destination⟩
  · cases traffic_of_occurs hΓ (fun m l h => hfresh m l h.1) hr hmsg ht with
    | request q hq heq => exact ⟨q, hq, Or.inl heq⟩
    | answer q hq j ha => exact ⟨q, hq, Or.inr (isReply_of_answer hok hI ha)⟩
  · have hsent := sent_request hΓ hfresh h hq
    refine ⟨?_, fun ht => ?_, sent_replies hΓ hfresh h hq⟩
    · split at hsent <;> omega
    · rw [if_pos (store_callback (hT.valid q hq) ht)] at hsent
      exact hsent
  · intro i c rest req msg hstack ha
    obtain ⟨q, hq, rfl⟩ := request_of_answers hΓ h hT (hstack ▸ List.mem_cons_self) ha
    exact ⟨⟨q, hq, rfl⟩, fun q' hreply => hno q hq (isAnswer_of_isReply hreply)⟩
  · intro i fn msg hmem
    obtain ⟨q, hq, hi, hfn, hreply⟩ := isReply_of_success hΓ hok h hmem
    refine ⟨q, hq, hi, hfn, hreply, ?_⟩
    rintro q' hq' rfl
    exact hno q' hq' (isAnswer_of_isReply hreply)

/-- A node pings another, which answers. -/
def pingAndPong {N : Nat} (i j : Fin N) : List (NetworkLabel N) :=
  [.enter (.add i)] ++ networkRuns 5 1 9 ++ [.enter (.add j)] ++ networkRuns 7 10 9 ++ [.enter (.app i (.ping 7 .empty))] ++
    networkRuns 0 19 2 ++ [.enter .tick] ++ networkRuns 0 25 36 ++ [.enter .tick] ++ networkRuns 0 61 8

/-- A callback of a reply is about to run in the node. -/
def isAnswered {N : Nat} (i : Fin N) (m : NetworkConfig N) : Bool :=
  match m.stack with
  | .app j (.base (.callback true _ _)) :: _ => decide (j = i)
  | _ => false

/-- The callback of the ping runs with a reply to it, and one copy of the ping was sent for it. -/
theorem request_reply_correlation_sample : ∃ m : NetworkConfig 2, ∃ fn msg, ∃ q ∈ requests m.trace,
    .app 0 (.base (.callback true fn msg)) ∈ m.stack ∧ q.requester = 0 ∧ sent (fun msg => decide (msg = q.message)) m ≤ 2 ∧
      IsReply .reference (fun m l => properNetwork m l = true) (sampleNetwork 1024) m q msg := by
  obtain ⟨m, hr, hm⟩ := exists_run_of_follow (networkProgram .reference 2) properNetwork (sampleNetwork 1024)
    (pingAndPong 0 1) (fun m : NetworkConfig 2 =>
      decide ((requests m.trace).all (fun q => q.maxRetries = 1)) && isAnswered 0 m) (by decide +kernel)
  obtain ⟨hone, htop⟩ := Bool.and_eq_true_iff.1 hm
  unfold isAnswered at htop
  split at htop
  · rename_i i fn msg rest hstack
    obtain rfl : i = 0 := of_decide_eq_true htop
    have hmem : NetworkCall.app 0 (.base (.callback true fn msg)) ∈ m.stack := hstack ▸ List.mem_cons_self
    obtain ⟨-, -, -, hsent, -, hsuccess⟩ := request_reply_correlation Ctx.reference_decodes hr
    obtain ⟨q, hq, hi, -, hreply, -⟩ := hsuccess 0 fn msg hmem
    have hmax : q.maxRetries = 1 := of_decide_eq_true (List.all_eq_true.1 (of_decide_eq_true hone) q hq)
    have hle := (hsent q hq).1
    rw [hmax] at hle
    exact ⟨m, fn, msg, q, hq, hmem, hi, hle, hreply⟩
  · cases htop

end Dhtsim
