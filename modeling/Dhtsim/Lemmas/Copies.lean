import Dhtsim.Lemmas.Retries
import Mathlib.Algebra.BigOperators.Group.Finset.Basic
import Mathlib.Algebra.Order.BigOperators.Group.Finset

/-!
# How many messages there are

A message is put into an outbound queue when a node makes a request, tries one again or answers a message. From there the network
passes it along once, or loses it; if it puts it back, the message is still the same one. So of the messages of some kind, those
that were passed along and those that are still on their way out are not more than were made.
-/

namespace Dhtsim

open CallMachine KademliaNode

/-- How many messages with `p` are in the outbound queues of a network. -/
def CentralizedNetwork.outgoing {N : Nat} (p : Message UInt32 → Bool) (w : CentralizedNetwork N) : Nat :=
  ∑ i, (w.applications i).outqueue.countP p

/-- Whether a call is about to queue a message with `p`. -/
def Call.sending (p : Message UInt32 → Bool) : Call → Nat
  | .base (.send m _ _ _) => if p m then 1 else 0
  | _ => 0

/-- Whether a call is about to queue a message with `p`, or to pass one along. -/
def NetworkCall.sending {N : Nat} (p : Message UInt32 → Bool) : NetworkCall N → Nat
  | .app _ c => c.sending p
  | .call _ c => c.sending p
  | .passAlongMessage m => if p m then 1 else 0
  | _ => 0

/-- How many messages with `p` the network passed along. -/
def passedAlong {N : Nat} (p : Message UInt32 → Bool) (tr : NetworkTrace N) : Nat :=
  tr.countP (fun e => match e.1 with
    | .passAlongMessage m => p m
    | _ => false)

/-- How many messages with `p` were sent: those that the network passed along, and those that are on their way out. -/
def sent {N : Nat} (p : Message UInt32 → Bool) (m : NetworkConfig N) : Nat :=
  m.state.outgoing p + (m.stack.map (NetworkCall.sending p)).sum + passedAlong p m.trace

/-- How often a node handled a message with `a`. -/
def handled {N : Nat} (a : Message UInt32 → Bool) (tr : NetworkTrace N) : Nat :=
  tr.countP (fun e => match e.1 with
    | .app _ (.base (.handleMessage m)) => a m
    | _ => false)

/-- Whether a call may answer a message with `a`. -/
def Call.answering (a : Message UInt32 → Bool) : Call → Nat
  | .dispatch m => if a m then 1 else 0
  | .handleFindNodes m _ => if a m then 1 else 0
  | .handleStore m _ => if a m then 1 else 0
  | _ => 0

def NetworkCall.answering {N : Nat} (a : Message UInt32 → Bool) : NetworkCall N → Nat
  | .app _ c => c.answering a
  | .call _ c => c.answering a
  | _ => 0

/-- How many messages with `p` were made: requests, retries of the tag, and answers to messages with `a`. -/
def made {N : Nat} (p a : Message UInt32 → Bool) (tag : Tag) (tr : NetworkTrace N) : Nat :=
  (requests tr).countP (fun q => p q.message) + retried tag tr + handled a tr

namespace CopiesAux

variable {N : Nat} {Γ : Ctx} {p a : Message UInt32 → Bool} {w w' : CentralizedNetwork N} {i : Fin N} {ch : NetworkChoice}
  {c : Call} {x : NetworkCall N} {n : KademliaNode} {rest cs : List (NetworkCall N)} {tr : NetworkTrace N} {tag : Tag}

/-! ## Counting -/

/-- Only the outbound queue of the application that changes counts differently. -/
theorem outgoing_setApplication (w : CentralizedNetwork N) (i : Fin N) (n : KademliaNode) :
    (w.setApplication i n).outgoing p + (w.applications i).outqueue.countP p = w.outgoing p + n.outqueue.countP p := by
  have hother : ∑ j ∈ Finset.univ.erase i, ((w.setApplication i n).applications j).outqueue.countP p =
      ∑ j ∈ Finset.univ.erase i, (w.applications j).outqueue.countP p := by
    refine Finset.sum_congr rfl (fun j hj => ?_)
    rw [CentralizedNetwork.applications_setApplication_of_ne w (Finset.ne_of_mem_erase hj)]
  simp only [CentralizedNetwork.outgoing]
  rw [← Finset.add_sum_erase _ _ (Finset.mem_univ i), ← Finset.add_sum_erase _ (fun j => (w.applications j).outqueue.countP p)
    (Finset.mem_univ i), hother, CentralizedNetwork.applications_setApplication_self]
  omega

theorem passedAlong_cons (e : NetworkCall N × NetworkChoice) (tr : NetworkTrace N) :
    passedAlong p (e :: tr) = passedAlong p tr + match e.1 with
      | .passAlongMessage m => if p m then 1 else 0
      | _ => 0 := by
  rw [passedAlong, List.countP_cons]
  obtain ⟨x, ch⟩ := e
  cases x <;> rfl

theorem retried_le_cons (e : NetworkCall N × NetworkChoice) (tr : NetworkTrace N) : retried tag tr ≤ retried tag (e :: tr) := by
  rw [retried, retried, List.countP_cons]
  exact Nat.le_add_right _ _

theorem requests_le_cons (e : NetworkCall N × NetworkChoice) (tr : NetworkTrace N) :
    (requests tr).countP (fun q => p q.message) ≤ (requests (e :: tr)).countP (fun q => p q.message) := by
  rcases requests_cons e tr with he | ⟨i, m, cb, mr, t, ch, -, -, -, he⟩
  · rw [he]
  · rw [he, List.countP_cons]
    exact Nat.le_add_right _ _

theorem handled_le_cons (e : NetworkCall N × NetworkChoice) (tr : NetworkTrace N) : handled a tr ≤ handled a (e :: tr) := by
  rw [handled, handled, List.countP_cons]
  exact Nat.le_add_right _ _

theorem made_le_cons (e : NetworkCall N × NetworkChoice) (tr : NetworkTrace N) :
    made p a tag tr ≤ made p a tag (e :: tr) :=
  Nat.add_le_add (Nat.add_le_add (requests_le_cons e tr) (retried_le_cons e tr)) (handled_le_cons e tr)

theorem sum_map_eq_zero {α : Type} {f : α → Nat} {l : List α} (h : ∀ x ∈ l, f x = 0) : (l.map f).sum = 0 := by
  refine List.sum_eq_zero (fun x hx => ?_)
  obtain ⟨y, hy, rfl⟩ := List.mem_map.1 hx
  exact h y hy

/-! ## A call of a node -/

/-- Only the calls that handle a message make answers. -/
def Handles (c : Call) : Prop := ∃ m, c = .base (.handleMessage m) ∨ c = .dispatch m ∨ (∃ fm, c = .handleFindNodes m fm) ∨
  ∃ sm, c = .handleStore m sm

/-- Other calls make no answers, and send only what has no tag yet. -/
theorem weight_of_makes (hzero : ∀ m : Message UInt32, m.tag = 0 → p m = false) {y : Call}
    (h : Makes Γ ch.toChoice n c y) (hc : ¬ Handles c) : y.sending p + y.answering a = 0 := by
  cases h with
  | dispatch => exact absurd ⟨_, Or.inl rfl⟩ hc
  | pong | findNodes | storeRequested => exact absurd ⟨_, Or.inr (Or.inl rfl)⟩ hc
  | findNodesReply => exact absurd ⟨_, Or.inr (Or.inr (Or.inl ⟨_, rfl⟩))⟩ hc
  | storeReply => exact absurd ⟨_, Or.inr (Or.inr (Or.inr ⟨_, rfl⟩))⟩ hc
  | pingSend => simp [Call.sending, Call.answering, hzero (n.pingRequest Γ _) rfl]
  | stepSend => simp [Call.sending, Call.answering, hzero (n.findNodesRequest Γ _ _ _) rfl]
  | storeSend => simp [Call.sending, Call.answering, hzero (n.storeRequest Γ _ _) rfl]
  | _ => rfl

/-- A call that handles a message makes at most one answer to it. -/
theorem weight_of_handles (hanswer : ∀ req msg, Answers Γ n c req msg → p msg = true → a req = true)
    {q : KademliaNode × List Call} (h : exec Γ ch.toChoice c n = some q) (hc : Handles c) :
    (q.2.map (fun y => y.sending p + y.answering a)).sum + handled a tr ≤
      c.sending p + c.answering a + handled a ((.app i c, ch) :: tr) := by
  have hle : ∀ req msg, Answers Γ n c req msg → (if p msg then 1 else 0) ≤ if a req then 1 else 0 := by
    intro req msg hans
    by_cases hp : p msg = true
    · rw [if_pos hp, if_pos (hanswer req msg hans hp)]
    · rw [if_neg hp]
      exact Nat.zero_le _
  have hhandled := handled_le_cons (a := a) (.app i c, ch) tr
  obtain ⟨m, rfl | rfl | ⟨fm, rfl⟩ | ⟨sm, rfl⟩⟩ := hc
  · cases h
    simp only [execBase, handled, List.countP_cons, List.map_cons, List.map_nil, List.sum_cons, List.sum_nil, Call.sending,
      Call.answering]
    omega
  · cases h
    have hobserve : ∀ b k, (Call.observe b k).sending p + (Call.observe b k).answering a = 0 := fun _ _ => rfl
    simp only [KademliaNode.dispatch]
    split
    · rename_i ht
      split_ifs with hp
      · have := hle m _ (.pong ht hp)
        change 0 + 0 + (((if p (n.pongTo Γ m) = true then 1 else 0) + 0) + 0) + handled a tr ≤
          0 + (if a m = true then 1 else 0) + _
        omega
      · simp only [List.map_cons, List.map_nil, List.sum_cons, List.sum_nil, hobserve]
        omega
    · split_ifs
      · simp only [List.map_nil, List.sum_nil]
        omega
      · simp only [List.map_cons, List.map_nil, List.sum_cons, List.sum_nil, Call.sending, Call.answering]
        omega
    · split_ifs
      · simp only [List.map_cons, List.map_nil, List.sum_cons, List.sum_nil, Call.sending, Call.answering]
        omega
      · simp only [List.map_cons, List.map_nil, List.sum_cons, List.sum_nil, hobserve]
        omega
    · simp only [List.map_nil, List.sum_nil]
      omega
    · simp only [List.map_nil, List.sum_nil]
      omega
  · cases h
    simp only [KademliaNode.handleFindNodes]
    split_ifs with hr
    · have := hle m _ (.found hr)
      change ((if p (n.findNodesReplyTo Γ m fm) = true then 1 else 0) + 0) + 0 + handled a tr ≤
        0 + (if a m = true then 1 else 0) + _
      omega
    · have hnone : ((fm.nearest.map (fun e => Call.observe e.address e.key)).map
          (fun y => y.sending p + y.answering a)).sum = 0 := by
        rw [List.map_map]
        exact sum_map_eq_zero (fun _ _ => rfl)
      rw [hnone]
      omega
  · cases h
    have := hle m _ (Answers.stored : Answers Γ n (.handleStore m sm) m _)
    change ((if p (n.storeReplyTo Γ m) = true then 1 else 0) + 0) + 0 + handled a tr ≤ 0 + (if a m = true then 1 else 0) + _
    omega

/-- What a call puts into the outbound queue it was about to send, or it was made. -/
theorem putsOut_made (hzero : ∀ m : Message UInt32, m.tag = 0 → p m = false)
    (hlive : n.dead = false → ∀ e ∈ tr, e.1 ≠ .app i (.base .die))
    (hretry : ∀ t r, (t, r) ∈ n.callbacks.entries → p (r.message.tagged ch.tag) = true → t = tag) :
    (n.putsOut ch.toChoice c).toList.countP p + made p a tag tr ≤ c.sending p + made p a tag ((.app i c, ch) :: tr) := by
  have hmade : made p a tag tr ≤ made p a tag ((.app i c, ch) :: tr) := made_le_cons _ tr
  cases hput : n.putsOut ch.toChoice c with
  | none =>
    simp only [Option.toList_none, List.countP_nil]
    omega
  | some msg =>
    have hcount : [msg].countP p = if p msg then 1 else 0 := by simp [List.countP_cons]
    rw [Option.toList_some, hcount]
    rcases putsOut_cases hput with ⟨m, cb, mr, t, rfl, hd, rfl⟩ | ⟨t, r, rfl, -, hf, rfl⟩
    · by_cases ht : m.tag = 0
      · simp only [Call.sending, hzero m ht, made, requests_send ht (hlive hd), List.countP_cons]
        have h1 : retried tag tr ≤ retried tag ((.app i (.base (.send m cb mr t)), ch) :: tr) := retried_le_cons _ tr
        have h2 := handled_le_cons (a := a) (.app i (.base (.send m cb mr t)), ch) tr
        omega
      · rw [tagged_of_ne ht]
        simp only [Call.sending]
        omega
    · split_ifs with hp
      · obtain rfl := hretry t r (SortedMap.find?_eq_some_iff.1 hf) hp
        have h1 := requests_le_cons (p := p) (.app i (.base (.attemptRetry t)), ch) tr
        have h2 := handled_le_cons (a := a) (.app i (.base (.attemptRetry t)), ch) tr
        simp only [made, retried_attemptRetry, if_true]
        omega
      · omega

/-- A call of a node hands on no more than there is and is made. -/
theorem node_step (hzero : ∀ m : Message UInt32, m.tag = 0 → p m = false)
    (hlive : n.dead = false → ∀ e ∈ tr, e.1 ≠ .app i (.base .die))
    (hretry : ∀ t r, (t, r) ∈ n.callbacks.entries → p (r.message.tagged ch.tag) = true → t = tag)
    (hanswer : ∀ req msg, Answers Γ n c req msg → p msg = true → a req = true) {q : KademliaNode × List Call}
    (h : exec Γ ch.toChoice c n = some q) :
    q.1.outqueue.countP p + (q.2.map (fun y => y.sending p + y.answering a)).sum + made p a tag tr ≤
      n.outqueue.countP p + (c.sending p + c.answering a) + made p a tag ((.app i c, ch) :: tr) := by
  have hqueue : q.1.outqueue.countP p ≤ n.outqueue.countP p + (n.putsOut ch.toChoice c).toList.countP p := by
    rcases exec_outqueue h with ⟨-, heq⟩ | heq
    · rw [heq]
      exact Nat.le_add_right_of_le (n.outqueue.tail_sublist.countP_le)
    · rw [heq, List.countP_append]
      split
      · exact Nat.le_refl _
      · exact Nat.add_le_add_left (Nat.zero_le _) _
  by_cases hc : Handles c
  · have hnone : n.putsOut ch.toChoice c = none := by
      obtain ⟨m, rfl | rfl | ⟨fm, rfl⟩ | ⟨sm, rfl⟩⟩ := hc <;> rfl
    rw [hnone] at hqueue
    have h1 : _ + handled a tr ≤ _ + handled a ((.app i c, ch) :: tr) := weight_of_handles hanswer h hc
    have h2 := requests_le_cons (p := p) (.app i c, ch) tr
    have h3 : retried tag tr ≤ retried tag ((.app i c, ch) :: tr) := retried_le_cons _ tr
    simp only [Option.toList_none, List.countP_nil] at hqueue
    simp only [made]
    omega
  · have hcs : (q.2.map (fun y => y.sending p + y.answering a)).sum = 0 :=
      sum_map_eq_zero (fun y hy => weight_of_makes hzero (exec_makes h y hy) hc)
    have hput := putsOut_made (a := a) (c := c) hzero hlive hretry
    omega

/-! ## A call of a network -/

/-- A call of a network hands on no more than there is and is made. -/
theorem network_step (hzero : ∀ m : Message UInt32, m.tag = 0 → p m = false)
    (hlive : ∀ i, (w.applications i).dead = false → ∀ e ∈ tr, e.1 ≠ .app i (.base .die))
    (hretry : ∀ i t r, (t, r) ∈ (w.applications i).callbacks.entries → p (r.message.tagged ch.tag) = true → t = tag)
    (hanswer : ∀ i c req msg, x = .app i c → Answers Γ (w.applications i) c req msg → p msg = true → a req = true)
    (h : CentralizedNetwork.exec Γ ch x w = some (w', cs)) :
    w'.outgoing p + (cs.map (fun y => y.sending p + y.answering a)).sum + passedAlong p ((x, ch) :: tr) + made p a tag tr ≤
      w.outgoing p + (x.sending p + x.answering a) + passedAlong p tr + made p a tag ((x, ch) :: tr) := by
  have hmade : made p a tag tr ≤ made p a tag ((x, ch) :: tr) := made_le_cons _ tr
  rw [passedAlong_cons]
  cases x with
  | app i c =>
    obtain ⟨q, hq, heq⟩ := CentralizedNetwork.exec_app h
    cases heq
    have hout := outgoing_setApplication (p := p) w i q.1
    have hnode := node_step hzero (hlive i) (hretry i) (fun req msg => hanswer i c req msg rfl) hq
    have hcs : ((q.2.map (NetworkCall.app i)).map (fun y : NetworkCall N => y.sending p + y.answering a)).sum =
        (q.2.map (fun y => y.sending p + y.answering a)).sum := by
      rw [List.map_map]
      rfl
    rw [hcs]
    simp only [NetworkCall.sending, NetworkCall.answering]
    omega
  | call i c =>
    cases h
    simp only [List.map_cons, List.map_nil, List.sum_cons, List.sum_nil, NetworkCall.sending, NetworkCall.answering]
    omega
  | outbound i total =>
    cases h
    have hout := outgoing_setApplication (p := p) w i (w.applications i).unqueueOut
    have htail : (w.applications i).unqueueOut.outqueue = (w.applications i).outqueue.tail := rfl
    simp only [NetworkCall.sending, NetworkCall.answering]
    split
    · rename_i hq
      rw [htail, hq] at hout
      simp only [List.tail_nil, List.countP_nil, List.map_nil, List.sum_nil] at hout ⊢
      omega
    · rename_i m rest hq
      rw [htail, hq] at hout
      simp only [List.tail_cons, List.countP_cons] at hout
      split_ifs
      · simp only [List.map_nil, List.sum_nil]
        omega
      · simp only [List.map_cons, List.map_nil, List.sum_cons, List.sum_nil, Call.sending, Call.answering]
        omega
      · simp only [List.map_cons, List.map_nil, List.sum_cons, List.sum_nil]
        omega
  | passAlongMessage m =>
    cases h
    have hcs : ((w.passAlongMessage m).map (fun y => y.sending p + y.answering a)).sum = 0 := by
      unfold CentralizedNetwork.passAlongMessage
      split <;> rfl
    rw [hcs]
    simp only [NetworkCall.sending, NetworkCall.answering]
    omega
  | settle i b =>
    have hcs : (cs.map (fun y => y.sending p + y.answering a)).sum = 0 :=
      sum_map_eq_zero (fun y hy => by cases CentralizedNetwork.exec_makes h y hy; rfl)
    cases h
    have hout := outgoing_setApplication (p := p) w i
      ((w.applications i).setBase { (w.applications i).toBaseApplication with address := b })
    have hsame : (w.settle i b).outgoing p = w.outgoing p := Nat.add_right_cancel hout
    rw [hcs, hsame]
    exact Nat.add_le_add_left hmade _
  | _ =>
    have hcs : (cs.map (fun y => y.sending p + y.answering a)).sum = 0 :=
      sum_map_eq_zero (fun y hy => by cases CentralizedNetwork.exec_makes h y hy <;> rfl)
    cases h
    rw [hcs]
    exact Nat.add_le_add_left hmade _

end CopiesAux

open CopiesAux

variable {N : Nat} {Γ : Ctx} {config : Fin N → Config} {key : Fin N → KademliaKey} {offset : Fin N → Time} {limit : UInt32}
  {ok : NetworkConfig N → NetworkLabel N → Prop} {m : NetworkConfig N} {p a : Message UInt32 → Bool} {tag : Tag}

/-- Of the messages with `p` no more were sent than were made, if what is tried again is the request of the tag and what is
answered with such a message is one with `a`. -/
theorem sent_le (hzero : ∀ m : Message UInt32, m.tag = 0 → p m = false)
    (hretry : ∀ m i t r ch, Run (networkProgram Γ N) ok (startNetwork config key offset limit) m → ok m (.run ch) →
      (t, r) ∈ (m.state.applications i).callbacks.entries → p (r.message.tagged ch.tag) = true → t = tag)
    (hanswer : ∀ m i c rest req msg ch, Run (networkProgram Γ N) ok (startNetwork config key offset limit) m →
      ok m (.run ch) → m.stack = .app i c :: rest → Answers Γ (m.state.applications i) c req msg → p msg = true → a req = true)
    (h : Run (networkProgram Γ N) ok (startNetwork config key offset limit) m) : sent p m ≤ made p a tag m.trace := by
  have hflow := h.flow_le (F := CentralizedNetwork.outgoing p) (w := fun y => y.sending p + y.answering a)
    (D := passedAlong p) (G := made p a tag) ?_ ?_ ?_
  · have hle : (m.stack.map (NetworkCall.sending p)).sum ≤ (m.stack.map (fun y => y.sending p + y.answering a)).sum :=
      List.sum_le_sum (fun y _ => Nat.le_add_right _ _)
    unfold sent
    omega
  · simp [startNetwork, CentralizedNetwork.init, CentralizedNetwork.outgoing, KademliaNode.init, passedAlong]
  · intro ch x rest w tr w' cs hr hok he
    refine network_step hzero (fun i hd => (live_iff hr i).1 hd) (fun i t r hrec hp => ?_) ?_ he
    · exact hretry _ i t r ch hr hok hrec hp
    · rintro i c req msg rfl ha hp
      exact hanswer _ i c rest req msg ch hr hok rfl ha hp
  · intro x hx
    have hnone : x.carries = none := carries_of_enters hx
    cases x with
    | app i c =>
      cases c with
      | base b =>
        cases b with
        | send m cb mr t => cases hnone
        | _ => rfl
      | dispatch m => cases hnone
      | handleFindNodes m fm => cases hnone
      | handleStore m sm => cases hnone
      | _ => rfl
    | call i c => exact absurd rfl ((NetworkCall.enters_cases hx).1 i c)
    | passAlongMessage m => cases hnone
    | _ => rfl

end Dhtsim
