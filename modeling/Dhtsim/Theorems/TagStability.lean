import Dhtsim.Lemmas.Traffic
import Dhtsim.Lemmas.Pending
import Dhtsim.Model.Outside

/-!
# The tag of a request

`send` draws a tag for a message without one, and registers the callback under it. The request, its retransmissions, the
copies that the network puts back and the answers all pass through `send` again, which leaves a tag alone, unless the tag that
was drawn is the one that stands for no tag. And the callback is found under the tag as long as no other is registered there.
-/

namespace Dhtsim

open CallMachine KademliaNode

variable {N : Nat} {Γ : Ctx} {config : Fin N → Config} {key : Fin N → KademliaKey} {offset : Fin N → Time} {limit : UInt32}

/-- A tag that is drawn for a message with a callback is neither zero nor that of a pending record of the node. -/
def freeTags (m : NetworkConfig N) (l : NetworkLabel N) : Bool :=
  match l, m.stack with
  | .run ch, .app i (.base (.send msg cb _ _)) :: _ =>
    msg.tag ≠ 0 || cb.isEmpty || (m.state.applications i).dead ||
      (ch.tag ≠ 0 && ((m.state.applications i).callbacks.find? ch.tag).isNone)
  | _, _ => true

/-- A step that does not erase the record of the request. -/
def keepsRecord (q : SentRequest N) (m : NetworkConfig N) (l : NetworkLabel N) : Bool :=
  match l, m.stack with
  | .run _, x :: _ => x ≠ .app q.requester (.base (.erase q.message.tag))
  | _, _ => true

/-- What has become of a request by some point of a run: the message that was put into the queue when the request was sent, what
`attemptRetry` sent for a record of such a message, such a message after it went through `send` another time, and what some node
answered to one. -/
inductive Descends (Γ : Ctx) (ok : NetworkConfig N → NetworkLabel N → Prop) (m₀ : NetworkConfig N) (q : SentRequest N) :
    NetworkConfig N → Message UInt32 → Prop where
  | sent {m m' : NetworkConfig N} {msg : Message UInt32} {time : UInt64} {rest : List (NetworkCall N)} {ch : NetworkChoice}
      (h₀ : Run (networkProgram Γ N) ok m₀ m)
      (hstack : m.stack = .app q.requester (.base (.send msg q.callback q.maxRetries time)) :: rest)
      (hlive : (m.state.applications q.requester).dead = false) (hfirst : q.callback.isEmpty = false ∨ msg.tag = 0)
      (hq : q.message = msg.tagged ch.tag) (hok : ok m (.run ch)) (hs : step (networkProgram Γ N) m (.run ch) = some m') :
      Descends Γ ok m₀ q m' q.message
  | later {m m' : NetworkConfig N} {msg : Message UInt32} (h : Descends Γ ok m₀ q m msg)
      (hr : Run (networkProgram Γ N) ok m m') : Descends Γ ok m₀ q m' msg
  | retried {m m' : NetworkConfig N} {i : Fin N} {tag : Tag} {r : SentMessage UInt32 SendFn} {rest : List (NetworkCall N)}
      {ch : NetworkChoice} (h : Descends Γ ok m₀ q m r.message) (hstack : m.stack = .app i (.base (.attemptRetry tag)) :: rest)
      (hf : (m.state.applications i).callbacks.find? tag = some r)
      (hs : step (networkProgram Γ N) m (.run ch) = some m') : Descends Γ ok m₀ q m' (r.message.tagged ch.tag)
  | sentAgain {m m' : NetworkConfig N} {i : Fin N} {msg : Message UInt32} {cb : CallbackSet SendFn} {mr : UInt32}
      {time : UInt64} {rest : List (NetworkCall N)} {ch : NetworkChoice} (h : Descends Γ ok m₀ q m msg)
      (hstack : m.stack = .app i (.base (.send msg cb mr time)) :: rest)
      (hs : step (networkProgram Γ N) m (.run ch) = some m') : Descends Γ ok m₀ q m' (msg.tagged ch.tag)
  | answered {m m' : NetworkConfig N} {i : Fin N} {c : Call} {req msg : Message UInt32} {rest : List (NetworkCall N)}
      {ch : NetworkChoice} (h : Descends Γ ok m₀ q m req) (hstack : m.stack = .app i c :: rest)
      (ha : Answers Γ (m.state.applications i) c req msg) (hs : step (networkProgram Γ N) m (.run ch) = some m') :
      Descends Γ ok m₀ q m' msg

namespace TagAux

variable {ok : NetworkConfig N → NetworkLabel N → Prop} {m₀ m m' : NetworkConfig N} {msg : Message UInt32} {i : Fin N}
  {q : SentRequest N}

/-! ## The tag -/

/-- The tag that is drawn for a request of a live node is neither zero nor that of a pending record. -/
theorem drawn_of_freeTags {cb : CallbackSet SendFn} {mr : UInt32} {t : UInt64} {rest : List (NetworkCall N)} {ch : NetworkChoice}
    (hfree : freeTags m (.run ch) = true) (hstack : m.stack = .app i (.base (.send msg cb mr t)) :: rest) (htag : msg.tag = 0)
    (hcb : cb.isEmpty = false) (hlive : (m.state.applications i).dead = false) :
    ch.tag ≠ 0 ∧ (m.state.applications i).callbacks.find? ch.tag = none := by
  simpa only [freeTags, hstack, htag, hcb, hlive, ne_eq, not_true_eq_false, decide_false, Bool.false_or, Bool.and_eq_true,
    decide_eq_true_eq, Option.isNone_iff_eq_none] using hfree

/-- Whatever becomes of a request with a callback has its tag. -/
theorem tag_of_descends (hok : ∀ m l, ok m l → freeTags m l = true) (hq : q.callback.isEmpty = false)
    (h : Descends Γ ok m₀ q m msg) : msg.tag = q.message.tag ∧ q.message.tag ≠ 0 := by
  induction h with
  | @sent m m' msg time rest ch h₀ hstack hlive hfirst hmsg hstep hs =>
    refine ⟨rfl, ?_⟩
    rw [hmsg, Message.tagged]
    split_ifs with htag
    · exact (drawn_of_freeTags (hok _ _ hstep) hstack htag hq hlive).1
    · exact htag
  | later h hr ih => exact ih
  | retried h hstack hf hs ih =>
    obtain ⟨htag, hne⟩ := ih
    rw [tagged_of_ne (htag ▸ hne)]
    exact ⟨htag, hne⟩
  | sentAgain h hstack hs ih =>
    obtain ⟨htag, hne⟩ := ih
    rw [tagged_of_ne (htag ▸ hne)]
    exact ⟨htag, hne⟩
  | answered h hstack ha hs ih => exact ⟨(answer_tag ha).trans ih.1, ih.2⟩

theorem descends_imp {ok' : NetworkConfig N → NetworkLabel N → Prop} (hok : ∀ m l, ok m l → ok' m l)
    (h : Descends Γ ok m₀ q m msg) : Descends Γ ok' m₀ q m msg := by
  induction h with
  | sent h₀ hstack hlive hfirst hq hl hs => exact .sent (h₀.mono hok) hstack hlive hfirst hq (hok _ _ hl) hs
  | later _ hr ih => exact ih.later (hr.mono hok)
  | retried _ hstack hf hs ih => exact ih.retried hstack hf hs
  | sentAgain _ hstack hs ih => exact ih.sentAgain hstack hs
  | answered _ hstack ha hs ih => exact ih.answered hstack ha hs

/-! ## The messages of a network -/

/-- Every message that a node has, or that a call carries, comes from a request; a record is that of a request, under its tag.
-/
structure Descent (Γ : Ctx) (ok : NetworkConfig N → NetworkLabel N → Prop) (m₀ m : NetworkConfig N) : Prop where
  nodes : ∀ i, ∀ msg ∈ (m.state.applications i).messages, ∃ q, Descends Γ ok m₀ q m msg
  records : ∀ i tag r, (tag, r) ∈ (m.state.applications i).callbacks.entries → ∃ q, Descends Γ ok m₀ q m q.message ∧
    q.requester = i ∧ q.message = r.message ∧ q.callback = r.callback ∧ q.callback.isEmpty = false ∧ q.message.tag = tag
  /-- A call carries such a message, or is about to send a request. -/
  stack : ∀ x ∈ m.stack, ∀ msg, x.carries = some msg → (∃ q, Descends Γ ok m₀ q m msg) ∨
    ∃ i cb mr t, x = .app i (.base (.send msg cb mr t)) ∧ msg.tag = 0

variable {w w' : CentralizedNetwork N} {x : NetworkCall N} {rest cs : List (NetworkCall N)} {tr : NetworkTrace N}
  {ch : NetworkChoice}

/-- What a live node sends comes from a request. -/
theorem descends_send {c : Message UInt32} {cb : CallbackSet SendFn} {mr : UInt32} {t : UInt64}
    (hr : Run (networkProgram Γ N) ok m₀ ⟨w, .app i (.base (.send c cb mr t)) :: rest, tr⟩)
    (hI : Descent Γ ok m₀ ⟨w, .app i (.base (.send c cb mr t)) :: rest, tr⟩) (hlive : (w.applications i).dead = false)
    (hl : ok ⟨w, .app i (.base (.send c cb mr t)) :: rest, tr⟩ (.run ch))
    (hs : step (networkProgram Γ N) ⟨w, .app i (.base (.send c cb mr t)) :: rest, tr⟩ (.run ch) = some m') :
    ∃ q, Descends Γ ok m₀ q m' (c.tagged ch.tag) := by
  rcases hI.stack _ List.mem_cons_self c rfl with ⟨q, hq⟩ | ⟨i', cb', mr', t', heq, htag⟩
  · exact ⟨q, hq.sentAgain rfl hs⟩
  · exact ⟨⟨i, c.tagged ch.tag, cb, mr⟩, .sent hr rfl hlive (Or.inr htag) rfl hl hs⟩

/-- The messages that the nodes have after a step come from requests. -/
theorem nodes_descend (hr : Run (networkProgram Γ N) ok m₀ ⟨w, x :: rest, tr⟩) (hI : Descent Γ ok m₀ ⟨w, x :: rest, tr⟩)
    (he : CentralizedNetwork.exec Γ ch x w = some (w', cs)) (hl : ok ⟨w, x :: rest, tr⟩ (.run ch))
    (hs : step (networkProgram Γ N) ⟨w, x :: rest, tr⟩ (.run ch) = some ⟨w', cs ++ rest, (x, ch) :: tr⟩) :
    ∀ i, ∀ msg ∈ (w'.applications i).messages, ∃ q, Descends Γ ok m₀ q ⟨w', cs ++ rest, (x, ch) :: tr⟩ msg := by
  intro i msg hmsg
  have hstep : Run (networkProgram Γ N) ok ⟨w, x :: rest, tr⟩ ⟨w', cs ++ rest, (x, ch) :: tr⟩ := Run.refl.step hl hs
  have hold : msg ∈ (w.applications i).messages → ∃ q, Descends Γ ok m₀ q ⟨w', cs ++ rest, (x, ch) :: tr⟩ msg := by
    intro h
    obtain ⟨q, hq⟩ := hI.nodes i msg h
    exact ⟨q, hq.later hstep⟩
  rcases CentralizedNetwork.applications_cases he i with h | ⟨c, p, rfl, h, hi⟩ | ⟨total, rfl, hi⟩ | ⟨a, rfl, hi⟩
  · exact hold (h ▸ hmsg)
  · rw [hi] at hmsg
    rcases mem_messages.1 hmsg with hin | hout | ⟨tag, r, hrec, rfl⟩
    · have hold : msg ∈ (w.applications i).inqueue → _ := fun h => hold (mem_messages.2 (Or.inl h))
      rcases exec_inqueue h with hqueue | ⟨-, hqueue⟩ | ⟨q, rfl, hqueue⟩
      · exact hold (hqueue ▸ hin)
      · exact hold (List.mem_of_mem_tail (hqueue ▸ hin))
      · rw [hqueue, List.mem_append] at hin
        rcases hin with hin | hin
        · exact hold hin
        · split at hin
          · obtain rfl := List.mem_singleton.1 hin
            rcases hI.stack _ List.mem_cons_self msg rfl with ⟨q, hq⟩ | ⟨_, _, _, _, heq, -⟩
            · exact ⟨q, hq.later hstep⟩
            · cases heq
          · cases hin
    · have hold : msg ∈ (w.applications i).outqueue → _ := fun h => hold (mem_messages.2 (Or.inr (Or.inl h)))
      rcases exec_outqueue h with ⟨-, hqueue⟩ | hqueue
      · exact hold (List.mem_of_mem_tail (hqueue ▸ hout))
      · rw [hqueue, List.mem_append] at hout
        rcases hout with hout | hout
        · exact hold hout
        · split at hout
          · rcases putsOut_cases (Option.mem_toList.1 hout) with ⟨c, cb, mr, t, rfl, hlive, rfl⟩ | ⟨tag, r, rfl, -, hf, rfl⟩
            · exact descends_send hr hI hlive hl hs
            · have hrec := SortedMap.find?_eq_some_iff.1 hf
              obtain ⟨q, hq⟩ := hI.nodes i r.message (mem_messages.2 (Or.inr (Or.inr ⟨tag, r, hrec, rfl⟩)))
              exact ⟨q, hq.retried rfl hf hs⟩
          · cases hout
    · rcases exec_record h hrec with ⟨r', hr', hmsg, -⟩ | ⟨c, mr, t, rfl, hlive, -, -, hmsg⟩
      · exact hold (mem_messages.2 (Or.inr (Or.inr ⟨tag, r', hr', hmsg.symm⟩)))
      · rw [hmsg]
        exact descends_send hr hI hlive hl hs
  · rw [hi] at hmsg
    rcases mem_messages.1 hmsg with h | h | h
    · exact hold (mem_messages.2 (Or.inl h))
    · exact hold (mem_messages.2 (Or.inr (Or.inl (List.mem_of_mem_tail h))))
    · exact hold (mem_messages.2 (Or.inr (Or.inr h)))
  · rw [hi] at hmsg
    exact hold hmsg

/-- The records after a step are those of requests. -/
theorem records_descend (hr : Run (networkProgram Γ N) ok m₀ ⟨w, x :: rest, tr⟩) (hI : Descent Γ ok m₀ ⟨w, x :: rest, tr⟩)
    (he : CentralizedNetwork.exec Γ ch x w = some (w', cs)) (hl : ok ⟨w, x :: rest, tr⟩ (.run ch))
    (hs : step (networkProgram Γ N) ⟨w, x :: rest, tr⟩ (.run ch) = some ⟨w', cs ++ rest, (x, ch) :: tr⟩) :
    ∀ i tag r, (tag, r) ∈ (w'.applications i).callbacks.entries →
      ∃ q, Descends Γ ok m₀ q ⟨w', cs ++ rest, (x, ch) :: tr⟩ q.message ∧ q.requester = i ∧ q.message = r.message ∧
        q.callback = r.callback ∧ q.callback.isEmpty = false ∧ q.message.tag = tag := by
  intro i tag r hrec
  have hold : ∀ r', (tag, r') ∈ (w.applications i).callbacks.entries → r.message = r'.message → r.callback = r'.callback →
      ∃ q, Descends Γ ok m₀ q ⟨w', cs ++ rest, (x, ch) :: tr⟩ q.message ∧ q.requester = i ∧ q.message = r.message ∧
        q.callback = r.callback ∧ q.callback.isEmpty = false ∧ q.message.tag = tag := by
    intro r' h hmsg hcb
    obtain ⟨q, hq, hi, hm, hc, hne, ht⟩ := hI.records i tag r' h
    exact ⟨q, hq.later (Run.refl.step hl hs), hi, hm.trans hmsg.symm, hc.trans hcb.symm, hne, ht⟩
  rcases CentralizedNetwork.applications_cases he i with h | ⟨c, p, rfl, h, hi⟩ | ⟨total, rfl, hi⟩ | ⟨a, rfl, hi⟩
  · exact hold r (h ▸ hrec) rfl rfl
  · rw [hi] at hrec
    rcases exec_record h hrec with ⟨r', hr', hmsg, hcb⟩ | ⟨c, mr, t, rfl, hlive, hne, rfl, hmsg⟩
    · exact hold r' hr' hmsg hcb
    · refine ⟨⟨i, c.tagged ch.tag, r.callback, mr⟩, ?_, rfl, hmsg.symm, rfl, hne, rfl⟩
      exact .sent hr rfl hlive (Or.inl hne) rfl hl hs
  · rw [hi] at hrec
    exact hold r hrec rfl rfl
  · rw [hi] at hrec
    exact hold r hrec rfl rfl

/-- The calls that a call makes carry what comes from requests, or are about to send one. -/
theorem stack_descends (hI : Descent Γ ok m₀ ⟨w, x :: rest, tr⟩) (he : CentralizedNetwork.exec Γ ch x w = some (w', cs))
    (hl : ok ⟨w, x :: rest, tr⟩ (.run ch))
    (hs : step (networkProgram Γ N) ⟨w, x :: rest, tr⟩ (.run ch) = some ⟨w', cs ++ rest, (x, ch) :: tr⟩) :
    ∀ y ∈ cs, ∀ msg, y.carries = some msg → (∃ q, Descends Γ ok m₀ q ⟨w', cs ++ rest, (x, ch) :: tr⟩ msg) ∨
      ∃ i cb mr t, y = .app i (.base (.send msg cb mr t)) ∧ msg.tag = 0 := by
  intro y hy msg hmsg
  have hstep : Run (networkProgram Γ N) ok ⟨w, x :: rest, tr⟩ ⟨w', cs ++ rest, (x, ch) :: tr⟩ := Run.refl.step hl hs
  have hheld : ∀ j, msg ∈ (w.applications j).messages → ∃ q, Descends Γ ok m₀ q ⟨w', cs ++ rest, (x, ch) :: tr⟩ msg := by
    intro j h
    obtain ⟨q, hq⟩ := hI.nodes j msg h
    exact ⟨q, hq.later hstep⟩
  have hcarried : x.carries = some msg → (∀ i cb mr t, x ≠ .app i (.base (.send msg cb mr t))) →
      ∃ q, Descends Γ ok m₀ q ⟨w', cs ++ rest, (x, ch) :: tr⟩ msg := by
    intro h hne
    rcases hI.stack x List.mem_cons_self msg h with ⟨q, hq⟩ | ⟨i, cb, mr, t, heq, -⟩
    · exact ⟨q, hq.later hstep⟩
    · exact absurd heq (hne i cb mr t)
  cases CentralizedNetwork.exec_makes he y hy with
  | @inside i c z h =>
    rcases makes_carries h hmsg with ⟨hc, hne⟩ | ⟨-, hin⟩ | ⟨cb, mr, t, rfl, ht, -, -⟩ | ⟨req, rfl, ha⟩
    · refine Or.inl (hcarried hc ?_)
      intro i' cb mr t heq
      cases heq
      exact hne cb mr t rfl
    · exact Or.inl (hheld i (mem_messages.2 (Or.inl hin)))
    · exact Or.inr ⟨i, cb, mr, t, rfl, ht⟩
    · have hcarries : (NetworkCall.app i c).carries = some req := by cases ha <;> rfl
      rcases hI.stack _ List.mem_cons_self req hcarries with ⟨q, hq⟩ | ⟨_, _, _, _, heq, -⟩
      · exact Or.inl ⟨q, hq.answered rfl ha hs⟩
      · cases heq
        cases ha
  | handOn => exact Or.inl (hcarried hmsg (by simp))
  | sendAgain hq hlimit =>
    cases hmsg
    exact Or.inl (hheld _ (mem_messages.2 (Or.inr (Or.inl (hq ▸ List.mem_cons_self)))))
  | passAlong hq =>
    cases hmsg
    exact Or.inl (hheld _ (mem_messages.2 (Or.inr (Or.inl (hq ▸ List.mem_cons_self)))))
  | recv hf =>
    cases hmsg
    exact Or.inl (hcarried rfl (by simp))
  | _ => cases hmsg

/-- In every reachable configuration every message comes from a request. -/
theorem descent_of_run (h : Run (networkProgram Γ N) ok (startNetwork config key offset limit) m) :
    Descent Γ ok (startNetwork config key offset limit) m := by
  refine h.invariant (I := Descent Γ ok (startNetwork config key offset limit)) ⟨?_, ?_, by simp [startNetwork]⟩ ?_
  · intro i msg hmsg
    simp [startNetwork, CentralizedNetwork.init, KademliaNode.init, KademliaNode.messages] at hmsg
  · intro i tag r hrec
    simp [startNetwork, CentralizedNetwork.init, KademliaNode.init] at hrec
  intro m l m' hr hI hl hs
  have hstep : Run (networkProgram Γ N) ok m m' := Run.refl.step hl hs.step_eq
  have hwaiting : ∀ y ∈ m.stack, ∀ msg, y.carries = some msg →
      (∃ q, Descends Γ ok (startNetwork config key offset limit) q m' msg) ∨
        ∃ i cb mr t, y = .app i (.base (.send msg cb mr t)) ∧ msg.tag = 0 := by
    intro y hy msg hmsg
    rcases hI.stack y hy msg hmsg with ⟨q, hq⟩ | h
    · exact Or.inl ⟨q, hq.later hstep⟩
    · exact Or.inr h
  have hnodes : ∀ i, ∀ msg ∈ (m.state.applications i).messages,
      ∃ q, Descends Γ ok (startNetwork config key offset limit) q m' msg := by
    intro i msg hmsg
    obtain ⟨q, hq⟩ := hI.nodes i msg hmsg
    exact ⟨q, hq.later hstep⟩
  have hrecords : ∀ i tag r, (tag, r) ∈ (m.state.applications i).callbacks.entries →
      ∃ q, Descends Γ ok (startNetwork config key offset limit) q m' q.message ∧ q.requester = i ∧ q.message = r.message ∧
        q.callback = r.callback ∧ q.callback.isEmpty = false ∧ q.message.tag = tag := by
    intro i tag r hrec
    obtain ⟨q, hq, h⟩ := hI.records i tag r hrec
    exact ⟨q, hq.later hstep, h⟩
  have hs' := hs.step_eq
  cases hs with
  | @run ch x rest w tr w' cs hw he =>
    refine ⟨nodes_descend hr hI he hl hs', records_descend hr hI he hl hs', fun y hy msg hmsg => ?_⟩
    rcases List.mem_append.1 hy with hy | hy
    · exact stack_descends hI he hl hs' y hy msg hmsg
    · exact hwaiting y (List.mem_cons_of_mem _ hy) msg hmsg
  | @event x w tr hx =>
    refine ⟨hnodes, hrecords, fun y hy msg hmsg => ?_⟩
    rw [List.mem_singleton.1 hy, carries_of_enters (Or.inl hx)] at hmsg
    cases hmsg
  | @reentry x f rest w tr hf hx =>
    refine ⟨hnodes, hrecords, fun y hy msg hmsg => ?_⟩
    rcases List.mem_cons.1 hy with rfl | hy
    · rw [carries_of_enters (Or.inr hx)] at hmsg
      cases hmsg
    · exact hwaiting y hy msg hmsg
  | @leave f rest w tr hf => exact ⟨hnodes, hrecords, fun y hy msg hmsg => hwaiting y (List.mem_cons_of_mem _ hy) msg hmsg⟩

/-! ## Sending and resolving -/

/-- What a step does that runs a call of a node. -/
theorem exec_of_step {c : Call} (hstack : m.stack = .app i c :: rest) (hs : step (networkProgram Γ N) m (.run ch) = some m') :
    ∃ p, KademliaNode.exec Γ ch.toChoice c (m.state.applications i) = some p ∧ m'.state.applications i = p.1 ∧
      m'.stack = p.2.map (.app i) ++ rest := by
  cases step_of_eq_some hs with
  | @run _ x rest' w tr w' cs hw he =>
    obtain ⟨rfl, rfl⟩ := List.cons.inj hstack
    obtain ⟨p, hp, hw'⟩ := CentralizedNetwork.exec_app he
    obtain ⟨rfl, rfl⟩ := Prod.mk.inj hw'
    exact ⟨p, hp, CentralizedNetwork.applications_setApplication_self .., rfl⟩

/-- A live node registers the callback under the tag of the message that it puts into the queue. -/
theorem registers_of_send {c : Message UInt32} {cb : CallbackSet SendFn} {mr : UInt32} {t : UInt64}
    (hstack : m.stack = .app i (.base (.send c cb mr t)) :: rest) (hcb : cb.isEmpty = false)
    (hlive : (m.state.applications i).dead = false) (hs : step (networkProgram Γ N) m (.run ch) = some m') :
    (∃ r, (m'.state.applications i).callbacks.find? (c.tagged ch.tag).tag = some r ∧ r.message = c.tagged ch.tag ∧
        r.callback = cb) ∧
      (m'.state.applications i).outqueue = (m.state.applications i).outqueue ++
        (if (m.state.applications i).outqueue.length < outqueueLimit then [c.tagged ch.tag] else []) ∧
      m'.stack = rest := by
  obtain ⟨p, hp, hnode, hrest⟩ := exec_of_step hstack hs
  have hmade : p.2 = [] := by
    cases hp
    simp [execBase, BaseApplication.exec, BaseApplication.send_of_live hlive]
  rw [hnode, hrest, exec_base hp, BaseApplication.exec, hmade]
  refine ⟨?_, BaseApplication.send_outqueue hlive _ _ _ _ _, rfl⟩
  rw [BaseApplication.send_of_live hlive, BaseApplication.queueOut_eq, BaseApplication.register, if_neg (by simp [hcb])]
  exact ⟨_, SortedMap.find?_insert_self _ _ _, rfl, rfl⟩

/-- A message that the base handles runs the functions for success of the record with its tag, and then erases it. -/
theorem resolves_of_receive {c : Message UInt32} {r : SentMessage UInt32 SendFn}
    (hstack : m.stack = .app i (.base (.receive c)) :: rest)
    (hf : (m.state.applications i).callbacks.find? c.tag = some r) (hs : step (networkProgram Γ N) m (.run ch) = some m') :
    m'.stack = r.callback.successFns.map (fun fn => .app i (.base (.callback true fn c))) ++
      .app i (.base (.erase c.tag)) :: rest := by
  obtain ⟨p, hp, -, hrest⟩ := exec_of_step hstack hs
  cases hp
  rw [hrest]
  rcases receive_cases Γ ch.toChoice c (m.state.applications i) with ⟨hnone, -⟩ | ⟨r', hf', hcalls⟩
  · cases hnone.symm.trans hf
  · cases hf'.symm.trans hf
    rw [hcalls]
    simp

/-! ## The record -/

/-- The node that sent the request has a record of it, under its tag. -/
def Pends (q : SentRequest N) (m : NetworkConfig N) : Prop :=
  ∃ r, (m.state.applications q.requester).callbacks.find? q.message.tag = some r ∧ r.message = q.message ∧
    r.callback = q.callback

/-- A record stays until it is erased, as nothing else is registered under its tag. -/
theorem pends_step {l : NetworkLabel N} (hr : Run (networkProgram Γ N) ok (startNetwork config key offset limit) m)
    (hI : Pends q m) (hfree : freeTags m l = true) (hkeep : keepsRecord q m l = true)
    (hs : Step (networkProgram Γ N) m l m') : Pends q m' := by
  obtain ⟨r, hf, hmsg, hcb⟩ := hI
  cases hs with
  | @run ch x rest w tr w' cs hw he =>
    have hsame : (w'.applications q.requester).callbacks = (w.applications q.requester).callbacks →
        Pends q ⟨w', cs ++ rest, (x, ch) :: tr⟩ := fun h => ⟨r, h ▸ hf, hmsg, hcb⟩
    rcases CentralizedNetwork.applications_cases he q.requester with h | ⟨c, p, rfl, hexec, hi⟩ | ⟨total, rfl, hi⟩ | ⟨a, rfl, hi⟩
    · exact hsame (congrArg (fun n : KademliaNode => n.callbacks) h)
    · rcases exec_callbacks hexec with h | ⟨msg, cb, mr, t, rfl, hlive, hne, h⟩ | ⟨tag, rfl, h⟩ | ⟨tag, r', rfl, hf', h⟩
      · exact hsame (hi ▸ h)
      · have hfrom := (fromRequests_of_run (run_node hr q.requester)).2 _ (mem_stack_nodeConfig List.mem_cons_self)
        rcases hfrom with rfl | ⟨-, htag⟩
        · cases hne
        · have hnone := (drawn_of_freeTags hfree rfl htag hne hlive).2
          have hother : q.message.tag ≠ (msg.tagged ch.tag).tag := by
            intro heq
            rw [Message.tagged, if_pos htag] at heq
            exact absurd (hnone.symm.trans (heq ▸ hf)) (by simp)
          refine ⟨r, ?_, hmsg, hcb⟩
          show (w'.applications q.requester).callbacks.find? q.message.tag = some r
          rw [hi, h, SortedMap.find?_insert_of_ne _ _ hother]
          exact hf
      · have hother : q.message.tag ≠ tag := by
          rintro rfl
          simp [keepsRecord] at hkeep
        refine ⟨r, ?_, hmsg, hcb⟩
        show (w'.applications q.requester).callbacks.find? q.message.tag = some r
        rw [hi, h, SortedMap.find?_erase_of_ne _ hother]
        exact hf
      · show ∃ r, (w'.applications q.requester).callbacks.find? q.message.tag = some r ∧ _
        rw [hi, h, SortedMap.find?_insert]
        split_ifs with htag
        · obtain rfl : r' = r := Option.some.inj (hf'.symm.trans (htag ▸ hf))
          exact ⟨_, rfl, hmsg, hcb⟩
        · exact ⟨r, hf, hmsg, hcb⟩
    · exact hsame ((congrArg (fun n : KademliaNode => n.callbacks) hi).trans rfl)
    · exact hsame ((congrArg (fun n : KademliaNode => n.callbacks) hi).trans rfl)
  | event hx => exact ⟨r, hf, hmsg, hcb⟩
  | reentry hf' hx => exact ⟨r, hf, hmsg, hcb⟩
  | leave hf' => exact ⟨r, hf, hmsg, hcb⟩

/-! ## The callbacks -/

/-- The functions of the request for one of the outcomes ran. -/
def Called (q : SentRequest N) (done : List (NetworkCall N)) : Prop :=
  ∃ ok c, ∀ fn ∈ q.callback.fns ok, .app q.requester (.base (.callback ok fn c)) ∈ done

/-- The record of the request is erased after its functions: what is above the erasure on the stack runs before it. -/
def CalledFirst (q : SentRequest N) (done : List (NetworkCall N)) : List (NetworkCall N) → Prop
  | [] => True
  | x :: rest => (x = .app q.requester (.base (.erase q.message.tag)) → Called q done) ∧ CalledFirst q (x :: done) rest

variable {done done' stack : List (NetworkCall N)}

theorem CalledFirst.mono (h : CalledFirst q done stack)
    (hsub : ∀ ok fn c, .app q.requester (.base (.callback ok fn c)) ∈ done →
      .app q.requester (.base (.callback ok fn c)) ∈ done') : CalledFirst q done' stack := by
  induction stack generalizing done done' with
  | nil => trivial
  | cons x stack ih =>
    refine ⟨fun hx => ?_, ih h.2 fun ok fn c hmem => ?_⟩
    · obtain ⟨ok, c, hall⟩ := h.1 hx
      exact ⟨ok, c, fun fn hfn => hsub ok fn c (hall fn hfn)⟩
    · exact (List.mem_cons.1 hmem).elim (fun heq => heq ▸ List.mem_cons_self) (fun hmem => List.mem_cons_of_mem _ (hsub ok fn c hmem))

/-- Calls that do not erase the record come first. -/
theorem CalledFirst.append (h : CalledFirst q done rest)
    (hcs : ∀ y ∈ cs, y ≠ .app q.requester (.base (.erase q.message.tag))) : CalledFirst q done (cs ++ rest) := by
  induction cs generalizing done with
  | nil => exact h
  | cons y cs ih =>
    refine ⟨fun hy => absurd hy (hcs y List.mem_cons_self), ih ?_ fun z hz => hcs z (List.mem_cons_of_mem _ hz)⟩
    exact h.mono fun _ _ _ hmem => List.mem_cons_of_mem _ hmem

/-- The functions of the request come first. -/
theorem CalledFirst.callbacks (h : CalledFirst q done rest) (ok : Bool) (c : Message UInt32) (fns : List SendFn)
    (hall : ∀ fn ∈ q.callback.fns ok, .app q.requester (.base (.callback ok fn c)) ∈ done ∨ fn ∈ fns) :
    CalledFirst q done (fns.map (fun fn => .app q.requester (.base (.callback ok fn c))) ++
      .app q.requester (.base (.erase q.message.tag)) :: rest) := by
  induction fns generalizing done with
  | nil =>
    refine ⟨fun _ => ⟨ok, c, fun fn hfn => (hall fn hfn).resolve_right List.not_mem_nil⟩, ?_⟩
    exact h.mono fun _ _ _ hmem => List.mem_cons_of_mem _ hmem
  | cons fn fns ih =>
    refine ⟨nofun, ih ?_ fun fn' hfn' => ?_⟩
    · exact h.mono fun _ _ _ hmem => List.mem_cons_of_mem _ hmem
    · rcases hall fn' hfn' with hmem | hmem
      · exact Or.inl (List.mem_cons_of_mem _ hmem)
      · rcases List.mem_cons.1 hmem with rfl | hmem
        · exact Or.inl List.mem_cons_self
        · exact Or.inr hmem

/-- What a call makes erases the record of the request after its functions. -/
theorem calledFirst_made {done : List (NetworkCall N)} (hlayered : Layered (x :: rest)) (hI : Pends q ⟨w, x :: rest, tr⟩)
    (he : CentralizedNetwork.exec Γ ch x w = some (w', cs)) (h : CalledFirst q done rest) : CalledFirst q done (cs ++ rest) := by
  by_cases hcs : ∀ y ∈ cs, y ≠ .app q.requester (.base (.erase q.message.tag))
  · exact h.append hcs
  obtain ⟨y, hcs⟩ := not_forall.1 hcs
  obtain ⟨hy, hne⟩ := Classical.not_imp.1 hcs
  obtain rfl := not_not.1 hne
  obtain ⟨r, hf, -, hcb⟩ := hI
  cases CentralizedNetwork.exec_makes he _ hy with
  | handOn => cases hlayered.events _ _ List.mem_cons_self
  | @inside i c z hmakes =>
    obtain ⟨p, hp, hw'⟩ := CentralizedNetwork.exec_app he
    obtain ⟨rfl, rfl⟩ := Prod.mk.inj hw'
    rcases makes_erases hmakes (by simp [Call.erases]) with ⟨after, rfl⟩ | ⟨msg, rfl⟩
    · cases hp
      rcases KademliaNode.overdue_cases Γ ch.toChoice after (w.applications q.requester) with
        ⟨-, hcalls⟩ | ⟨tag, r', hn, hcalls | hcalls | hcalls⟩
      · rw [hcalls] at hy
        cases hy
      · rw [hcalls] at hy
        simp at hy
      · rw [hcalls] at hy
        simp at hy
      · rw [hcalls] at hy ⊢
        obtain rfl : q.message.tag = tag := by simpa using hy
        obtain rfl : r' = r := Option.some.inj ((SortedMap.find?_eq_some_iff.2 (SortedMap.mem_of_next hn)).symm.trans hf)
        have hother : ∀ y ∈ [(.app q.requester (.base (.overdue (some q.message.tag))) : NetworkCall N)],
            y ≠ .app q.requester (.base (.erase q.message.tag)) := by simp
        have hnext : CalledFirst q done (.app q.requester (.base (.overdue (some q.message.tag))) :: rest) := h.append hother
        have hfirst := hnext.callbacks false r'.message r'.callback.failureFns (fun fn hfn => Or.inr (by rw [hcb]; exact hfn))
        simpa [Function.comp_def] using hfirst
    · cases hp
      rcases KademliaNode.receive_cases Γ ch.toChoice msg (w.applications q.requester) with ⟨-, hcalls⟩ | ⟨r', hf', hcalls⟩
      · rw [hcalls] at hy
        cases hy
      · rw [hcalls] at hy ⊢
        have htag : q.message.tag = msg.tag := by simpa using hy
        obtain rfl : r' = r := Option.some.inj (hf'.symm.trans (htag ▸ hf))
        have hfirst := h.callbacks true msg r'.callback.successFns (fun fn hfn => Or.inr (by rw [hcb]; exact hfn))
        simpa [← htag, Function.comp_def] using hfirst

/-- Where a request with a callback was just sent, its record is there, and nothing is about to erase it. -/
theorem pends_of_send {msg : Message UInt32} {time : UInt64} {m₁ : NetworkConfig N}
    (hr : Run (networkProgram Γ N) ok (startNetwork config key offset limit) m) (hcb : q.callback.isEmpty = false)
    (hq : q.message = msg.tagged ch.tag)
    (hstack : m.stack = .app q.requester (.base (.send msg q.callback q.maxRetries time)) :: rest)
    (hlive : (m.state.applications q.requester).dead = false) (hfree : freeTags m (.run ch) = true)
    (hs : step (networkProgram Γ N) m (.run ch) = some m₁) : Pends q m₁ ∧ CalledFirst q [] m₁.stack := by
  obtain ⟨hrecord, -, hrest⟩ := registers_of_send hstack hcb hlive hs
  rw [← hq] at hrecord
  refine ⟨hrecord, ?_⟩
  have hmem : .base (.send msg q.callback q.maxRetries time) ∈ (nodeConfig q.requester m).stack :=
    mem_stack_nodeConfig (hstack ▸ List.mem_cons_self)
  rcases (fromRequests_of_run (run_node hr q.requester)).2 _ hmem with hempty | ⟨-, htag⟩
  · rw [hempty] at hcb
    cases hcb
  · have hnone := (drawn_of_freeTags hfree hstack htag hcb hlive).2
    have hone : CalledFirst q [] (rest ++ []) := by
      refine CalledFirst.append trivial fun y hy heq => ?_
      have herase : .base (.erase q.message.tag) ∈ (nodeConfig q.requester m).stack :=
        mem_stack_nodeConfig (hstack ▸ List.mem_cons_of_mem _ (heq ▸ hy))
      obtain ⟨r, hf⟩ := recorded_of_run (run_node hr q.requester) _ (List.mem_filterMap.2 ⟨_, herase, rfl⟩)
      rw [hq, Message.tagged, if_pos htag] at hf
      exact absurd (hnone.symm.trans hf) (by simp)
    rwa [List.append_nil, ← hrest] at hone

/-- Until the record of a request is erased it is there, and erased only after the functions of the request have run. -/
theorem pends_of_run {m₁ : NetworkConfig N} (hr : Run (networkProgram Γ N) ok (startNetwork config key offset limit) m₁)
    (hok : ∀ m l, ok m l → freeTags m l = true) (hI : Pends q m₁) (hfirst : CalledFirst q [] m₁.stack)
    (h : Run (networkProgram Γ N) (fun m l => ok m l ∧ keepsRecord q m l = true) m₁ m) :
    Pends q m ∧ CalledFirst q ((since m₁ m).map (·.1)) m.stack := by
  refine h.invariant (I := fun m => Pends q m ∧ CalledFirst q ((since m₁ m).map (·.1)) m.stack) ?_ ?_
  · rw [since_self]
    exact ⟨hI, hfirst⟩
  intro m l m' hm ⟨hpends, hcalled⟩ hl hs
  have hr' := hr.trans (hm.mono fun _ _ h => h.1)
  refine ⟨pends_step hr' hpends (hok _ _ hl.1) hl.2 hs, ?_⟩
  cases hs with
  | @run ch x rest w tr w' cs hw he =>
    rw [since_cons (s := w) (l := x :: rest) hm.trace_suffix]
    exact calledFirst_made (NetworkCall.layered_of_run hr') hpends he hcalled.2
  | @event x w tr hx =>
    refine ⟨fun heq => ?_, trivial⟩
    subst heq
    cases hx
  | @reentry x f rest w tr hf hx =>
    refine ⟨fun heq => ?_, hcalled.mono fun _ _ _ hmem => List.mem_cons_of_mem _ hmem⟩
    subst heq
    cases hx
  | @leave f rest w tr hf =>
    refine hcalled.2.mono fun ok fn c hmem => ?_
    rcases List.mem_cons.1 hmem with rfl | hmem
    · cases hf
    · exact hmem

end TagAux

open TagAux

/-- The tag of a request in every run of a network in which no tag is drawn for a message with a callback that is zero or that of
a pending record of the node, whatever else is drawn and whatever the nodes do.
1. A live node registers the callback under the tag of the message that it puts into the queue.
2. Every message in a queue of a node, in a record or carried by a call has come from a request, or is a request about to be sent,
   and every record is that of a request, under its tag.
3. Whatever has become of a request with a callback has the tag of the request: its retransmissions, the copies that were put
   back, and all that was answered to any of these.
4. From where a request with a callback was sent until its record is erased, when such a message is delivered to the node that
   sent it, what runs next are the functions for success of that request, before the record is erased. And it is erased only
   after the functions of the request, those for success or those for failure, have run. -/
theorem tag_stability {m : NetworkConfig N}
    (h : Run (networkProgram Γ N) (fun m l => freeTags m l = true) (startNetwork config key offset limit) m) :
    (∀ i msg cb mr time rest ch m', m.stack = .app i (.base (.send msg cb mr time)) :: rest → cb.isEmpty = false →
      (m.state.applications i).dead = false → step (networkProgram Γ N) m (.run ch) = some m' →
      (∃ r, (m'.state.applications i).callbacks.find? (msg.tagged ch.tag).tag = some r ∧ r.message = msg.tagged ch.tag ∧
          r.callback = cb) ∧
        (m'.state.applications i).outqueue = (m.state.applications i).outqueue ++
          if (m.state.applications i).outqueue.length < outqueueLimit then [msg.tagged ch.tag] else []) ∧
    Descent Γ (fun m l => freeTags m l = true) (startNetwork config key offset limit) m ∧
    (∀ q msg, q.callback.isEmpty = false →
      Descends Γ (fun m l => freeTags m l = true) (startNetwork config key offset limit) q m msg →
        msg.tag = q.message.tag) ∧
    ∀ q msg time rest ch m₁ m₂, q.callback.isEmpty = false → q.message = msg.tagged ch.tag →
      m.stack = .app q.requester (.base (.send msg q.callback q.maxRetries time)) :: rest →
      (m.state.applications q.requester).dead = false → freeTags m (.run ch) = true →
      step (networkProgram Γ N) m (.run ch) = some m₁ →
      Run (networkProgram Γ N) (fun m l => freeTags m l = true ∧ keepsRecord q m l = true) m₁ m₂ →
        (∀ reply rest' ch' m₃, Descends Γ (fun m l => freeTags m l = true) (startNetwork config key offset limit) q m₂ reply →
          m₂.stack = .app q.requester (.base (.receive reply)) :: rest' →
          step (networkProgram Γ N) m₂ (.run ch') = some m₃ →
            m₃.stack = q.callback.successFns.map (fun fn => .app q.requester (.base (.callback true fn reply))) ++
              .app q.requester (.base (.erase q.message.tag)) :: rest') ∧
        ∀ rest', m₂.stack = .app q.requester (.base (.erase q.message.tag)) :: rest' →
          ∃ ok c, ∀ fn ∈ q.callback.fns ok, .app q.requester (.base (.callback ok fn c)) ∈ (since m₁ m₂).map (·.1) := by
  have htag : ∀ q m msg, q.callback.isEmpty = false →
      Descends Γ (fun m l => freeTags m l = true) (startNetwork config key offset limit) q m msg →
        msg.tag = q.message.tag :=
    fun q m msg hq hd => (tag_of_descends (fun _ _ hok => hok) hq hd).1
  refine ⟨?_, descent_of_run h, fun q msg => htag q m msg, ?_⟩
  · intro i msg cb mr time rest ch m' hstack hcb hlive hs
    obtain ⟨hrecord, hqueue, -⟩ := registers_of_send hstack hcb hlive hs
    exact ⟨hrecord, hqueue⟩
  · intro q msg time rest ch m₁ m₂ hcb hq hstack hlive hfree hs hr
    obtain ⟨hfirst, hnone⟩ := pends_of_send h hcb hq hstack hlive hfree hs
    obtain ⟨hpends, hcalled⟩ := pends_of_run (h.step hfree hs) (fun _ _ hok => hok) hfirst hnone hr
    refine ⟨fun reply rest' ch' m₃ hd hstack' hs' => ?_, fun rest' hstack' => ?_⟩
    · obtain ⟨r, hf, -, hr⟩ := hpends
      have heq := htag q m₂ reply hcb hd
      rw [← heq] at hf ⊢
      rw [← hr]
      exact resolves_of_receive hstack' hf hs'
    · rw [hstack'] at hcalled
      exact hcalled.1 rfl

/-! ## A retransmission -/

/-- The ping of a node to an address where nobody lives. -/
def vainPing (tag : Tag) : Message UInt32 := ⟨MessageType.ping.code, 5, 7, tag, Ctx.reference.ping.write (.ping (.starting 0))⟩

/-- The request as it was sent, with the tag that was drawn. -/
def vainRequest (tag : Tag) : SentRequest 1 := ⟨0, vainPing tag, .of (.pingSuccess 7 .empty) (.pingFailure 7 .empty), 1⟩

/-- A node is added, and is about to send its ping. -/
def untilSend : List (NetworkLabel 1) :=
  [.enter (.add 0)] ++ networkRuns 5 1 9 ++ [.enter (.app 0 (.ping 7 .empty))] ++ networkRuns 0 19 1

/-- Two ticks of the network, and a third one up to the retransmission. -/
def untilRetry : List (NetworkLabel 1) :=
  [.enter .tick] ++ networkRuns 0 21 15 ++ [.enter .tick] ++ networkRuns 0 21 13 ++ [.enter .tick] ++ networkRuns 0 21 7

/-- A step that draws a tag. -/
def drawing (tag : Tag) : NetworkChoice := ⟨⟨tag, 0, false, 0⟩, []⟩

/-- The retransmission of a ping descends from it, whichever tags are drawn for the two, if these steps can be made. -/
theorem exists_retransmission (ok : NetworkConfig 1 → NetworkLabel 1 → Bool) (t d : Tag)
    (h : (follow (networkProgram .reference 1) ok (sampleNetwork 1024) untilSend).any (fun m₁ =>
      decide (m₁.stack.head? = some (.app 0 (.base (.send (vainPing 0) (vainRequest t).callback 1 2)))) &&
        !(m₁.state.applications 0).dead && ok m₁ (.run (drawing t)) &&
          (step (networkProgram .reference 1) m₁ (.run (drawing t))).any (fun m₂ =>
            (follow (networkProgram .reference 1) ok m₂ untilRetry).any (fun m₃ =>
              decide (m₃.stack.head? = some (.app 0 (.base (.attemptRetry t)))) && ok m₃ (.run (drawing d)) &&
                decide (((m₃.state.applications 0).callbacks.find? t).map (·.message) = some (vainPing t)) &&
                  (step (networkProgram .reference 1) m₃ (.run (drawing d))).any (fun m₄ =>
                    decide ((m₄.state.applications 0).callbacks.entries.map (·.1) = [t]))))) = true) :
    ∃ m, Run (networkProgram .reference 1) (fun m l => ok m l = true) (sampleNetwork 1024) m ∧
      Descends .reference (fun m l => ok m l = true) (sampleNetwork 1024) (vainRequest t) m ((vainPing t).tagged d) ∧
      (m.state.applications 0).callbacks.entries.map (·.1) = [t] := by
  obtain ⟨m₁, h₁, h⟩ := (Option.any_eq_true _ _).1 h
  simp only [Bool.and_eq_true, decide_eq_true_eq, Bool.not_eq_true', Option.any_eq_true] at h
  obtain ⟨⟨⟨hsend, hlive⟩, hok₁⟩, m₂, hs₁, m₃, h₃, ⟨⟨hretry, hok₃⟩, hrecord⟩, m₄, hs₃, hkeys⟩ := h
  obtain ⟨rest₁, hstack₁⟩ := List.head?_eq_some_iff.1 hsend
  obtain ⟨rest₃, hstack₃⟩ := List.head?_eq_some_iff.1 hretry
  obtain ⟨r, hf, hmsg⟩ := Option.map_eq_some_iff.1 hrecord
  have hr₁ := run_of_follow h₁
  have hr₃ := run_of_follow h₃
  have hsent : Descends .reference (fun m l => ok m l = true) (sampleNetwork 1024) (vainRequest t) m₂ (vainPing t) := by
    refine .sent hr₁ hstack₁ hlive (Or.inl rfl) ?_ hok₁ hs₁
    rfl
  refine ⟨m₄, ((hr₁.step hok₁ hs₁).trans hr₃).step hok₃ hs₃, ?_, hkeys⟩
  rw [← hmsg]
  exact .retried (hmsg ▸ hsent.later hr₃) hstack₃ hf hs₃

/-! ## A reply -/

/-- A ping with callbacks, as it was sent to another node with the tag that was drawn. -/
def answeredRequest (i : Fin 2) (tag : Tag) : SentRequest 2 :=
  ⟨i, vainPing tag, .of (.pingSuccess 7 (.of (.user 1) (.user 2))) (.pingFailure 7 (.of (.user 1) (.user 2))), 1⟩

/-- The pong of the other node. -/
def pongOf (tag : Tag) : Message UInt32 :=
  ⟨MessageType.ping.code, 7, 5, tag, Ctx.reference.ping.write (.pong (.starting 0x80))⟩

/-- Two nodes are added, and the first is about to send its ping to the second. -/
def untilPing (i j : Fin 2) : List (NetworkLabel 2) :=
  [.enter (.add i)] ++ networkRuns 5 1 9 ++ [.enter (.add j)] ++ networkRuns 7 1 9 ++
    [.enter (.app i (.ping 7 (.of (.user 1) (.user 2))))] ++ networkRuns 0 1 1

/-- The first node pings an address where nobody lives, drawing the tag for it, and the network ticks for so many calls, up to
where the second handles the ping. -/
def untilAsked (i : Fin 2) (tag : Tag) (k : Nat) : List (NetworkLabel 2) :=
  [.enter (.app i (.ping 9 (.of (.user 3) (.user 4)))), .run (drawing 0), .run (drawing tag), .enter .tick] ++ networkRuns 0 1 k

/-- The rest of the tick, and the next one up to where the first node handles the pong. -/
def untilAnswered : List (NetworkLabel 2) := networkRuns 0 1 13 ++ [.enter .tick] ++ networkRuns 0 1 7

/-- The pong descends from the ping, whichever tags are drawn for the two pings, if these steps can be made. -/
theorem exists_pong (i j : Fin 2) (ok : NetworkConfig 2 → NetworkLabel 2 → Bool) (t d : Tag) (k : Nat)
    (p : NetworkConfig 2 → Bool)
    (h : (follow (networkProgram .reference 2) ok (sampleNetwork 1024) (untilPing i j)).any (fun m =>
      decide (m.stack = [.app i (.base (.send (vainPing 0) (answeredRequest i t).callback 1 2))]) &&
        !(m.state.applications i).dead && ok m (.run (drawing t)) &&
          (step (networkProgram .reference 2) m (.run (drawing t))).any (fun m₁ =>
            (follow (networkProgram .reference 2) (fun m l => ok m l && keepsRecord (answeredRequest i t) m l) m₁
              (untilAsked i d k)).any (fun m₂ =>
                decide (m₂.stack.head? = some (.app j (.dispatch (vainPing t)))) && ok m₂ (.run (drawing 0)) &&
                  decide ((m₂.state.applications j).pongTo .reference (vainPing t) = pongOf t) &&
                  (step (networkProgram .reference 2) m₂ (.run (drawing 0))).any (fun m₃ =>
                    (follow (networkProgram .reference 2) (fun m l => ok m l && keepsRecord (answeredRequest i t) m l) m₃
                      untilAnswered).any (fun m₄ =>
                        decide (m₄.stack.head? = some (.app i (.base (.receive (pongOf t))))) &&
                          (step (networkProgram .reference 2) m₄ (.run (drawing 0))).any p))))) = true) :
    ∃ m m₁ m₂ m₃ rest, Run (networkProgram .reference 2) (fun m l => ok m l = true) (sampleNetwork 1024) m ∧
      m.stack = [.app i (.base (.send (vainPing 0) (answeredRequest i t).callback 1 2))] ∧
      (m.state.applications i).dead = false ∧ ok m (.run (drawing t)) = true ∧
      step (networkProgram .reference 2) m (.run (drawing t)) = some m₁ ∧
      Run (networkProgram .reference 2) (fun m l => ok m l = true ∧ keepsRecord (answeredRequest i t) m l = true) m₁ m₂ ∧
      Descends .reference (fun m l => ok m l = true) (sampleNetwork 1024) (answeredRequest i t) m₂ (pongOf t) ∧
      m₂.stack = .app i (.base (.receive (pongOf t))) :: rest ∧
      step (networkProgram .reference 2) m₂ (.run (drawing 0)) = some m₃ ∧ p m₃ = true := by
  obtain ⟨m, h₀, h⟩ := (Option.any_eq_true _ _).1 h
  simp only [Bool.and_eq_true, decide_eq_true_eq, Bool.not_eq_true', Option.any_eq_true] at h
  obtain ⟨⟨⟨hstack, hlive⟩, hok⟩, m₁, hs, m₂, h₁, ⟨⟨hasked, hok₂⟩, hpong⟩, m₃, hs₂, m₄, h₃, hanswered, m₅, hs₄, hp⟩ := h
  obtain ⟨rest₂, hstack₂⟩ := List.head?_eq_some_iff.1 hasked
  obtain ⟨rest₄, hstack₄⟩ := List.head?_eq_some_iff.1 hanswered
  have hr := run_of_follow h₀
  have hr₁ := (run_of_follow h₁).mono (fun _ _ h => (Bool.and_eq_true _ _).mp h)
  have hr₃ := (run_of_follow h₃).mono (fun _ _ h => (Bool.and_eq_true _ _).mp h)
  have hkeep₂ : keepsRecord (answeredRequest i t) m₂ (.run (drawing 0)) = true := by
    simp [keepsRecord, hstack₂]
  have hsent : Descends .reference (fun m l => ok m l = true) (sampleNetwork 1024) (answeredRequest i t) m₁ (vainPing t) :=
    .sent hr hstack hlive (Or.inl rfl) rfl hok hs
  have hasked := hsent.later (hr₁.mono fun _ _ h => h.1)
  have hreply := hasked.answered hstack₂ (.pong rfl rfl) hs₂
  rw [hpong] at hreply
  exact ⟨m, m₁, m₄, m₅, rest₄, hr, hstack, hlive, hok, hs, (hr₁.step ⟨hok₂, hkeep₂⟩ hs₂).trans hr₃,
    hreply.later (hr₃.mono fun _ _ h => h.1), hstack₄, hs₄, hp⟩

/-- A tag that is not zero stays with the ping when it is sent again; and the pong that carries it back runs the functions of the
ping, when the ping that is sent next has another one. -/
theorem tag_stability_sample :
    (∃ m msg, Descends .reference (fun m l => freeTags m l = true) (sampleNetwork 1024) (vainRequest 20) m msg ∧ msg.tag = 20) ∧
    ∃ m m' rest, m.stack = .app 0 (.base (.receive (pongOf 20))) :: rest ∧
      step (networkProgram .reference 2) m (.run (drawing 0)) = some m' ∧
      m'.stack = [.app 0 (.base (.callback true (.pingSuccess 7 (.of (.user 1) (.user 2))) (pongOf 20))),
        .app 0 (.base (.erase 20))] ++ rest := by
  constructor
  · obtain ⟨m, hr, hd, -⟩ := exists_retransmission freeTags 20 77 (by decide +kernel)
    exact ⟨m, _, hd, (tag_stability hr).2.2.1 _ _ rfl hd⟩
  · obtain ⟨m, m₁, m₂, m₃, rest, hr, hstack, hlive, hok, hs, hr₁, hd, hstack₂, hs₂, -⟩ :=
      exists_pong 0 1 freeTags 20 21 25 (fun _ => true) (by decide +kernel)
    have hresolves := (tag_stability hr).2.2.2 (answeredRequest 0 20) _ _ _ _ _ _ rfl rfl hstack hlive hok hs hr₁
    exact ⟨m₂, m₃, rest, hstack₂, hs₂, hresolves.1 _ _ _ _ hd hstack₂ hs₂⟩

/-- Two ways in which a tag does not lead a reply to the callback.
1. When the tag that is drawn is zero, the callback is registered under zero, and the retransmission goes out with another tag,
   under which there is no record.
2. When the tag of a pending ping is drawn again for the ping to another address, the pong runs the functions of that one. -/
theorem tag_stability_false :
    (∃ m msg, Run (networkProgram .reference 1) anyStep (sampleNetwork 1024) m ∧
      Descends .reference anyStep (sampleNetwork 1024) (vainRequest 0) m msg ∧ (vainRequest 0).message.tag = 0 ∧ msg.tag = 77 ∧
      (m.state.applications 0).callbacks.entries.map (·.1) = [0]) ∧
    ∃ m m' rest, Run (networkProgram .reference 2) anyStep (sampleNetwork 1024) m ∧
      Descends .reference anyStep (sampleNetwork 1024) (answeredRequest 0 5) m (pongOf 5) ∧
      m.stack = .app 0 (.base (.receive (pongOf 5))) :: rest ∧
      step (networkProgram .reference 2) m (.run (drawing 0)) = some m' ∧
      m'.stack.head? = some (.app 0 (.base (.callback true (.pingSuccess 9 (.of (.user 3) (.user 4))) (pongOf 5)))) ∧
      .app 0 (.base (.callback true (.pingSuccess 7 (.of (.user 1) (.user 2))) (pongOf 5))) ∉ m'.stack := by
  constructor
  · obtain ⟨m, hr, hd, hkeys⟩ := exists_retransmission (fun _ _ => true) 0 77 (by decide +kernel)
    exact ⟨m, (vainPing 0).tagged 77, run_anyStep hr, descends_imp (fun _ _ _ => trivial) hd, rfl, rfl, hkeys⟩
  · obtain ⟨m, m₁, m₂, m₃, rest, hr, hstack, hlive, hok, hs, hr₁, hd, hstack₂, hs₂, hp⟩ :=
      exists_pong 0 1 (fun _ _ => true) 5 5 24 (fun m =>
        decide (m.stack.head? = some (.app 0 (.base (.callback true (.pingSuccess 9 (.of (.user 3) (.user 4))) (pongOf 5))))) &&
          decide (.app 0 (.base (.callback true (.pingSuccess 7 (.of (.user 1) (.user 2))) (pongOf 5))) ∉ m.stack))
        (by decide +kernel)
    simp only [Bool.and_eq_true, decide_eq_true_eq] at hp
    exact ⟨m₂, m₃, rest, (run_anyStep (hr.step hok hs)).trans (run_anyStep hr₁), descends_imp (fun _ _ _ => trivial) hd, hstack₂,
      hs₂, hp.1, hp.2⟩

end Dhtsim
