import Dhtsim.Lemmas.Outbound
import Dhtsim.Lemmas.NodeTicks
import Dhtsim.Model.Outside

/-!
# The time that a message takes

A message that is passed along in a tick waits in the inbound queue of its receiver until the receiver ticks. The network ticks
its inhabitants in the order of their addresses, so the receiver still does so in the same tick if its address is the larger
one, and only in the next tick if it is the smaller one.
-/

namespace Dhtsim

open CallMachine Moment

variable {N : Nat}

/-- The call in which a node handles a message. -/
def NetworkCall.handles (j : Fin N) : NetworkCall N → Bool
  | .app i (.base (.handleMessage _)) => decide (i = j)
  | _ => false

/-- The number of messages that a node handled. -/
def handledBy (j : Fin N) (tr : NetworkTrace N) : Nat := tr.countP (fun e => e.1.handles j)

/-- The number of ticks that ended. -/
def ticksEnded (tr : NetworkTrace N) : Nat := tr.countP (fun e => decide (e.1 = .endTick))

/-- A message is about to be passed along, in the turn of the inhabitant of `a`, to another inhabitant, whose only address is `b`
and whose inbound queue is not full. -/
structure Sending (Γ : Ctx) (m : NetworkConfig N) (a b : UInt32) (j : Fin N) (msg : Message UInt32) : Prop where
  reached : ∃ config key offset limit, Run (networkProgram Γ N) anyStep (startNetwork config key offset limit) m
  stack : ∃ i total, m.stack = .passAlongMessage msg :: loops a i total
  destination : msg.destination = b
  inhabitant : ∀ c, m.state.inhabitants.find? c = some j ↔ c = b
  distinct : a ≠ b
  room : (m.state.applications j).inqueue.length < inqueueLimit

/-- The node stays a live inhabitant of the address, and of no other. -/
def stays (b : UInt32) (j : Fin N) (m : NetworkConfig N) (l : NetworkLabel N) : Prop :=
  (∀ c, m.state.inhabitants.find? c = some j ↔ c = b) ∧ (m.state.applications j).dead = false ∧
    l ≠ .enter (.add j) ∧ l ≠ .enter (.app j (.base .die))

/-- The ticks that a message takes from `a` to `b`. -/
def latency (a b : UInt32) : Nat := if a < b then 0 else 1

/-- The node comes to handle the message that was at the end of its inbound queue once it was passed along: it has handled all
those before it since. -/
def ComesToHandle (m₁ m : NetworkConfig N) (j : Fin N) (x : Message UInt32) : Prop :=
  (∃ rest, m.stack = .app j (.base (.handleMessage x)) :: rest) ∧
    handledBy j m.trace = handledBy j m₁.trace + (m₁.state.applications j).inqueue.length

/-- A message that was passed along, and that its receiver comes to handle. -/
structure Delivery (Γ : Ctx) (N : Nat) where
  source : UInt32
  destination : UInt32
  receiver : Fin N
  message : Message UInt32
  passed : NetworkConfig N
  handling : NetworkConfig N
  sending : Sending Γ passed source destination receiver message
  run : Run (networkProgram Γ N) (stays destination receiver) passed handling
  comes : ComesToHandle passed handling receiver message

/-- The number of ticks between that in which a message was passed along and that in which it is handled. -/
def Delivery.ticks {Γ : Ctx} (D : Delivery Γ N) : Nat := ticksEnded D.handling.trace - ticksEnded D.passed.trace

namespace LatencyAux

variable {Γ : Ctx} {ch : NetworkChoice} {w w' : CentralizedNetwork N} {μ μ' : Moment N} {a b : UInt32} {i j : Fin N}
  {msg : Message UInt32} {p lat h d : Nat} {ran : List (NetworkCall N)} {m₁ m m' : NetworkConfig N} {l : NetworkLabel N}

/-- A call that may run between two ticks: it does not tick the node, nor let it handle a message. -/
def Clean (j : Fin N) : NetworkCall N → Prop
  | .app i c => i = j → c.runsInTurn false = true
  | .call i _ => i ≠ j
  | .add i => i ≠ j
  | .settle i _ => i ≠ j
  | _ => True

/-- The receiver has still to tick: it was its turn before that of the sender, or it is still to come. -/
inductive Coming (b : UInt32) (j : Fin N) (lat : Nat) : Nat → Moment N → Prop where
  | passed {μ : Moment N} (hlat : lat = 1) (hin : μ.within) (hμ : μ.after b) : Coming b j lat 0 μ
  | idle {calls : List (NetworkCall N)} (hlat : lat = 1) (hclean : ∀ x ∈ calls, Clean j x) : Coming b j lat 1 (.between calls)
  | soon {μ : Moment N} (hμ : μ.before b) : Coming b j lat lat μ

/-- The call of which draining the inbound queue is part. -/
def drains (j : Fin N) : NetworkCall N → Bool
  | .call i (.tick _) => decide (i = j)
  | .app i (.tick _) => decide (i = j)
  | .app i (.base (.tick _)) => decide (i = j)
  | .app i (.base .drain) => decide (i = j)
  | _ => false

/-- The way of a message from where it is passed along to its handler, with the number of messages that the receiver has handled
and the number of ticks that have ended since. -/
inductive Transit (a b : UInt32) (i j : Fin N) (msg : Message UInt32) (p lat : Nat) (w : CentralizedNetwork N) :
    Nat → Nat → Moment N → Prop where
  | passing {total : Nat} {x : NetworkCall N}
      (hx : x = .passAlongMessage msg ∨ x = .call j (.base (.recv msg)) ∨ x = .app j (.base (.recv msg)))
      (hp : (w.applications j).inqueue.length = p) : Transit a b i j msg p lat w 0 0 (.passing a i total x)
  | queued {before rest : List (Message UInt32)} {h d : Nat} {μ : Moment N}
      (hq : (w.applications j).inqueue = before ++ msg :: rest) (hp : before.length + h = p) (hμ : Coming b j lat d μ) :
      Transit a b i j msg p lat w h d μ
  | draining {before rest : List (Message UInt32)} {h : Nat} {x : NetworkCall N} {calls : List (NetworkCall N)}
      (hq : (w.applications j).inqueue = before ++ msg :: rest)
      (hp : before.length + h + (if x.handles j then 1 else 0) = p) (hdrains : (x :: calls).any (drains j) = true)
      (hbelow : ∀ y ∈ calls, y.handles j = false) : Transit a b i j msg p lat w h lat (.ticking b j (x :: calls))
  | atHand {calls : List (NetworkCall N)} (hbelow : ∀ y ∈ calls, y.handles j = false) :
      Transit a b i j msg p lat w p lat (.ticking b j (.app j (.base (.handleMessage msg)) :: calls))
  | handled {h d : Nat} {μ : Moment N} (hp : p < h) : Transit a b i j msg p lat w h d μ

/-- A call that does not run in the turn of another inhabitant is none that drains the queue or handles a message. -/
theorem quiet_of_runsInTurn {k : Fin N} {c : Call} (hc : k = j → c.runsInTurn false = true) :
    NetworkCall.app k c ≠ .app j (.base .drain) ∧ (NetworkCall.app k c).handles j = false := by
  constructor
  · rintro h
    cases h
    cases hc rfl
  · by_cases hk : k = j
    · cases c with
      | base b =>
        cases b with
        | handleMessage m => cases hc hk
        | _ => rfl
      | _ => rfl
    · cases c with
      | base b =>
        cases b with
        | handleMessage m => exact decide_eq_false hk
        | _ => rfl
      | _ => rfl

theorem Coming.ne_turn (hc : Coming b j lat d μ) (hlive : ∀ c, w.inhabitants.find? c = some j → c = b) {c : UInt32} {k : Fin N}
    {calls : List (NetworkCall N)} (hμ : μ = .ticking c k calls) (hk : w.inhabitants.find? c = some k) : k ≠ j := by
  rintro rfl
  obtain rfl := hlive c hk
  subst hμ
  cases hc with
  | passed _ _ h => exact lt_irrefl _ h
  | soon h => exact lt_irrefl _ h

/-- While the receiver's turn is to come, the receiver neither drains its queue nor handles a message. -/
theorem quiet_proceeds (hμ : μ.Fits w) (hc : Coming b j lat d μ) (hstays : ∀ c, w.inhabitants.find? c = some j ↔ c = b)
    (hg : Proceeds Γ ch w μ ran w' μ') : ∀ x ∈ ran, x ≠ .app j (.base .drain) ∧ x.handles j = false := by
  intro x hx
  cases hg with
  | aside _ he =>
    cases List.mem_singleton.1 hx
    cases hc with
    | passed _ h _ => exact absurd h not_false
    | soon h => exact absurd h not_false
    | idle _ hclean =>
      have hx := hclean x List.mem_cons_self
      cases x with
      | app k c => exact quiet_of_runsInTurn hx
      | _ => exact ⟨by simp, rfl⟩
  | @ticks c i k _ cs calls w' he =>
    cases List.mem_singleton.1 hx
    obtain ⟨hi, -, hcall | hcalls⟩ := hμ
    · cases hcall
    · have hne : i ≠ j := hc.ne_turn (fun c => (hstays c).1) rfl hi
      obtain ⟨k', c', hkc, hrun⟩ := hcalls _ List.mem_cons_self
      cases hkc
      refine quiet_of_runsInTurn (fun hkj => ?_)
      rwa [hkj, decide_eq_false (Ne.symm hne)] at hrun
  | comes | returns | begins | reenters | leaves => cases hx
  | _ =>
    cases List.mem_singleton.1 hx
    exact ⟨by simp [putBack], rfl⟩

theorem clean_of_makes {x y : NetworkCall N} (h : NetworkMakes Γ ch w x y) (hx : Clean j x) (haside : x.isAside = true) :
    Clean j y := by
  cases h with
  | inside h => exact fun hi => runsInTurn_of_makes h (hx hi)
  | handOn => exact fun hi => absurd hi hx
  | settle | catchUp => exact hx
  | _ => cases haside

theorem ended_eq_zero (hg : Proceeds Γ ch w μ ran w' μ') (hμ : μ ≠ .finish) :
    ran.countP (fun x => decide (x = .endTick)) = 0 :=
  List.countP_eq_zero.2 (fun x hx => by simpa using hg.ne_endTick hμ x hx)

/-- The receiver's turn is still to come, or it begins. -/
theorem coming_proceeds (hc : Coming b j lat d μ) (hb : w.inhabitants.find? b = some j)
    (hcomes : ∀ x calls, μ = .between calls → μ' = .between (x :: calls) → ran = [] → Clean j x)
    (hg : Proceeds Γ ch w μ ran w' μ') :
    Coming b j lat (d + ran.countP (fun x => decide (x = .endTick))) μ' ∨
      d = lat ∧ ran.countP (fun x => decide (x = .endTick)) = 0 ∧ w' = w ∧ μ' = .ticking b j [.call j (.tick w.epoch)] := by
  cases hc with
  | passed hlat hin hμ =>
    left
    by_cases hend : μ = .finish
    · subst hend
      obtain ⟨rfl, -, rfl⟩ := hg.finish
      exact .idle hlat (fun x hx => absurd hx List.not_mem_nil)
    · rw [ended_eq_zero hg hend]
      exact .passed hlat (hg.within hin hend) (hg.after hin hμ)
  | @idle calls hlat hclean =>
    left
    rw [ended_eq_zero hg (by simp)]
    cases hg with
    | aside hx he =>
      refine .idle hlat (fun y hy => ?_)
      rcases List.mem_append.1 hy with hy | hy
      · exact clean_of_makes (CentralizedNetwork.exec_makes he y hy) (hclean _ List.mem_cons_self) hx
      · exact hclean y (List.mem_cons_of_mem _ hy)
    | comes =>
      refine .idle hlat (fun y hy => ?_)
      rcases List.mem_cons.1 hy with rfl | hy
      · exact hcomes y calls rfl rfl rfl
      · exact hclean y hy
    | returns => exact .idle hlat (fun y hy => hclean y (List.mem_cons_of_mem _ hy))
    | begins => exact hlat ▸ .soon trivial
  | soon hμ =>
    have hcount := ended_eq_zero hg (by rintro rfl; exact hμ)
    rcases hg.before hb hμ with hμ' | ⟨after, -, -, hw, hμ'⟩
    · left
      rw [hcount]
      exact .soon hμ'
    · exact Or.inr ⟨rfl, hcount, hw, hμ'⟩

/-- Only draining the queue lets the node handle a message. -/
theorem handles_eq_false {k : Fin N} {c : Call} {y : NetworkCall N} {cs : List (NetworkCall N)}
    (he : CentralizedNetwork.exec Γ ch (.app k c) w = some (w', cs)) (hx : NetworkCall.app k c ≠ .app j (.base .drain))
    (hy : y ∈ cs) : y.handles j = false := by
  obtain ⟨q, hq, heq⟩ := CentralizedNetwork.exec_app he
  obtain ⟨rfl, rfl⟩ := Prod.mk.inj heq
  obtain ⟨c', hc', rfl⟩ := List.mem_map.1 hy
  have hmakes := KademliaNode.exec_makes hq c' hc'
  by_contra hhandles
  cases hmakes <;> first | exact hhandles rfl | skip
  have hkj : k = j := by simpa [NetworkCall.handles] using hhandles
  exact hx (hkj ▸ rfl)

/-- A call of which draining the queue of a live node is part, other than the loop itself, makes another one. -/
theorem drains_of_exec {k : Fin N} {c : Call} {cs : List (NetworkCall N)}
    (he : CentralizedNetwork.exec Γ ch (.app k c) w = some (w', cs)) (hx : NetworkCall.app k c ≠ .app j (.base .drain))
    (hlive : (w.applications j).dead = false) (hdrains : drains j (.app k c) = true) : cs.any (drains j) = true := by
  obtain ⟨q, hq, heq⟩ := CentralizedNetwork.exec_app he
  obtain ⟨rfl, rfl⟩ := Prod.mk.inj heq
  cases c with
  | tick t =>
    cases hq
    simpa [drains] using hdrains
  | base b =>
    cases b with
    | tick t =>
      obtain rfl : k = j := of_decide_eq_true hdrains
      cases hq
      simp [KademliaNode.execBase, BaseApplication.exec, hlive, drains]
    | drain =>
      obtain rfl : k = j := of_decide_eq_true hdrains
      exact absurd rfl hx
    | _ => cases hdrains
  | _ => cases hdrains

theorem draining_inTurn {before rest : List (Message UInt32)} {calls : List (NetworkCall N)}
    (hq : (w.applications j).inqueue = before ++ msg :: rest) (hp : before.length + h = p)
    (hdrains : calls.any (drains j) = true) (hnone : ∀ y ∈ calls, y.handles j = false) :
    Transit a b i j msg p lat w h lat (inTurn b j calls) := by
  cases calls with
  | nil => cases hdrains
  | cons x calls =>
    refine .draining hq ?_ hdrains (fun y hy => hnone y (List.mem_cons_of_mem _ hy))
    rw [hnone x List.mem_cons_self]
    simpa using hp

/-- The receiver's own tick drains its queue, and so comes to the message. -/
theorem draining_step {before rest : List (Message UInt32)} {x : NetworkCall N} {calls : List (NetworkCall N)}
    (hq : (w.applications j).inqueue = before ++ msg :: rest)
    (hp : before.length + h + (if x.handles j then 1 else 0) = p) (hdrains : (x :: calls).any (drains j) = true)
    (hbelow : ∀ y ∈ calls, y.handles j = false) (hlive : (w.applications j).dead = false)
    (hg : Proceeds Γ ch w (.ticking b j (x :: calls)) ran w' μ') :
    Transit a b i j msg p lat w' (h + ran.countP (fun y => y.handles j)) lat μ' := by
  cases hg with
  | handOn => exact .draining hq hp (by simp [drains]) hbelow
  | @ticks _ _ k c cs _ w' he =>
    have hcount : [NetworkCall.app k c].countP (fun y => y.handles j) =
        if (NetworkCall.app k c).handles j then 1 else 0 := by
      rw [List.countP_singleton]
    rw [hcount]
    by_cases hdrain : NetworkCall.app k c = .app j (.base .drain)
    · cases hdrain
      obtain ⟨q, hexec, heq⟩ := CentralizedNetwork.exec_app he
      cases before with
      | nil =>
        simp only [KademliaNode.exec, KademliaNode.execBase, BaseApplication.exec, hq, List.nil_append,
          Option.some.injEq] at hexec
        subst hexec
        cases heq
        obtain rfl : h = p := by simpa [NetworkCall.handles] using hp
        refine .atHand (fun y hy => ?_)
        rcases List.mem_cons.1 hy with rfl | hy
        · rfl
        · exact hbelow y hy
      | cons m before =>
        simp only [KademliaNode.exec, KademliaNode.execBase, BaseApplication.exec, hq, List.cons_append,
          Option.some.injEq] at hexec
        subst hexec
        cases heq
        have hq' : ((w.setApplication j ((w.applications j).setBase
            { (w.applications j).toBaseApplication with inqueue := before ++ msg :: rest })).applications j).inqueue =
            before ++ msg :: rest := by
          rw [CentralizedNetwork.applications_setApplication_self]
          rfl
        refine .draining hq' ?_ (by simp [drains]) (fun y hy => ?_)
        · simp only [NetworkCall.handles, List.length_cons] at hp ⊢
          simp only [decide_true, if_true]
          simpa [Nat.add_assoc, Nat.add_comm, Nat.add_left_comm] using hp
        · rcases List.mem_cons.1 hy with rfl | hy
          · rfl
          · exact hbelow y hy
    · obtain ⟨more, hmore⟩ := inqueue_exec he hdrain
      have hq' : (w'.applications j).inqueue = before ++ msg :: (rest ++ more) := by
        rw [hmore, hq, List.append_assoc, List.cons_append]
      refine draining_inTurn hq' (by omega) ?_ (fun y hy => ?_)
      · rw [List.any_append]
        rw [List.any_cons] at hdrains
        rcases Bool.or_eq_true_iff.1 hdrains with hx | hcalls
        · rw [drains_of_exec he hdrain hlive hx, Bool.true_or]
        · rw [hcalls, Bool.or_true]
      · rcases List.mem_append.1 hy with hy | hy
        · exact handles_eq_false he hdrain hy
        · exact hbelow y hy
  | @reenters _ _ k _ c _ hx hc =>
    obtain ⟨k', rfl⟩ := isUserCode_cases hx
    have hpublic : (NetworkCall.app k c).handles j = false := by
      cases c with
      | base b => cases hc
      | _ => rfl
    refine .draining hq ?_ ?_ (fun y hy => ?_)
    · rw [hpublic]
      exact hp
    · rw [List.any_cons, hdrains, Bool.or_true]
    · rcases List.mem_cons.1 hy with rfl | hy
      · rfl
      · exact hbelow y hy
  | leaves hx =>
    obtain ⟨k', rfl⟩ := isUserCode_cases hx
    exact draining_inTurn hq hp hdrains hbelow

/-- What a step makes of the way of a message. -/
theorem Transit.step (ht : Transit a b i j msg p (latency a b) w h d μ) (hμ : μ.Fits w) (hdest : msg.destination = b)
    (hne : a ≠ b) (hroom : p < inqueueLimit) (hstays : ∀ c, w.inhabitants.find? c = some j ↔ c = b)
    (hlive : (w.applications j).dead = false)
    (hcomes : ∀ x calls, μ = .between calls → μ' = .between (x :: calls) → ran = [] → Clean j x)
    (hg : Proceeds Γ ch w μ ran w' μ') :
    Transit a b i j msg p (latency a b) w' (h + ran.countP (fun x => x.handles j))
      (d + ran.countP (fun x => decide (x = .endTick))) μ' := by
  have hb : w.inhabitants.find? b = some j := (hstays b).2 rfl
  cases ht with
  | @passing total x hx hp =>
    rcases hx with rfl | rfl | rfl
    · cases hg with
      | nobody hf =>
        rw [hdest, hb] at hf
        cases hf
      | delivers hf =>
        rw [hdest, hb] at hf
        cases hf
        exact .passing (Or.inr (Or.inl rfl)) hp
    · cases hg with
      | hands => exact .passing (Or.inr (Or.inr rfl)) hp
    · cases hg with
      | takes =>
        have hq : (w.applications j).toBaseApplication.queueIn msg =
            { (w.applications j).toBaseApplication with inqueue := (w.applications j).inqueue ++ [msg] } :=
          if_pos (hp ▸ hroom)
        have hq' : ((w.setApplication j ((w.applications j).setBase
            ((w.applications j).toBaseApplication.queueIn msg))).applications j).inqueue = (w.applications j).inqueue ++ [msg] := by
          rw [CentralizedNetwork.applications_setApplication_self, hq]
          rfl
        refine .queued hq' hp ?_
        rcases lt_or_gt_of_ne hne with hlt | hgt
        · rw [latency, if_pos hlt]
          exact .soon hlt
        · rw [latency, if_neg (not_lt_of_gt hgt)]
          exact .passed rfl trivial hgt
  | @queued before rest h d μ hq hp hcoming =>
    have hquiet := quiet_proceeds hμ hcoming hstays hg
    have hcount : ran.countP (fun x => x.handles j) = 0 :=
      List.countP_eq_zero.2 (fun x hx => by simp [(hquiet x hx).2])
    obtain ⟨more, hmore⟩ := inqueue_proceeds hg (fun x hx => (hquiet x hx).1)
    rw [hcount]
    rcases coming_proceeds hcoming hb hcomes hg with hcoming' | ⟨rfl, hended, rfl, rfl⟩
    · have hq' : (w'.applications j).inqueue = before ++ msg :: (rest ++ more) := by
        rw [hmore, hq, List.append_assoc, List.cons_append]
      exact .queued hq' hp hcoming'
    · rw [hended]
      exact .draining hq hp (by simp [drains]) (fun y hy => absurd hy List.not_mem_nil)
  | draining hq hp hdrains hbelow =>
    rw [ended_eq_zero hg (by simp)]
    exact draining_step hq hp hdrains hbelow hlive hg
  | @atHand calls hbelow =>
    rw [ended_eq_zero hg (by simp)]
    cases hg with
    | ticks he =>
      refine .handled ?_
      simp [NetworkCall.handles]
    | reenters hx | leaves hx => cases hx
  | handled hp => exact .handled (by omega)

/-- What comes in between two ticks does not tick the node. -/
theorem clean_of_enter {x : NetworkCall N} (hok : stays b j m (.enter x))
    (hx : (networkProgram Γ N).event x = true ∨ (networkProgram Γ N).reentry x = true) : Clean j x := by
  obtain ⟨-, -, hadd, hdie⟩ := hok
  cases x with
  | app k c =>
    rintro rfl
    have hpublic : c.isPublic = true := by
      rcases hx with hx | hx
      · rcases Bool.or_eq_true_iff.1 hx with h | h
        · exact h
        · exact absurd (by rw [of_decide_eq_true h]) hdie
      · exact hx
    exact runsInTurn_of_isPublic hpublic false
  | add k => exact fun hk => hadd (hk ▸ rfl)
  | call | settle => rcases hx with hx | hx <;> cases hx
  | _ => trivial

/-- A message on its way. -/
def OnItsWay (a b : UInt32) (j : Fin N) (msg : Message UInt32) (m₁ m : NetworkConfig N) : Prop :=
  ∃ i μ h d, m.stack = μ.stack ∧ μ.Fits m.state ∧ (μ.within → ∀ c, m.state.inhabitants.find? c = some j ↔ c = b) ∧
    handledBy j m.trace = handledBy j m₁.trace + h ∧ ticksEnded m.trace = ticksEnded m₁.trace + d ∧
      Transit a b i j msg (m₁.state.applications j).inqueue.length (latency a b) m.state h d μ

theorem onItsWay_of_run (hs : Sending Γ m₁ a b j msg) (hr : Run (networkProgram Γ N) (stays b j) m₁ m) :
    OnItsWay a b j msg m₁ m := by
  refine hr.invariant (I := OnItsWay a b j msg m₁) ?_ ?_
  · obtain ⟨config, key, offset, limit, hreached⟩ := hs.reached
    obtain ⟨i, total, hstack⟩ := hs.stack
    obtain ⟨μ, hμ, hfits⟩ := moment_of_run hreached
    obtain rfl := eq_passing_of_stack hfits (hμ.symm.trans hstack)
    exact ⟨i, _, 0, 0, hμ, hfits, fun _ => hs.inhabitant, rfl, rfl, .passing (Or.inl rfl) rfl⟩
  · rintro m l m' - ⟨i, μ, h, d, hstack, hfits, -, hhandled, hended, ht⟩ hok hstep
    obtain ⟨ch, ran, μ', hstack', hfits', htrace, hg⟩ := proceeds_of_step hfits hstack hstep
    refine ⟨i, μ', _, _, hstack', hfits', fun hin => by rw [hg.inhabitants hin]; exact hok.1, ?_, ?_,
      ht.step hfits hs.destination hs.distinct hs.room hok.1 hok.2.1 ?_ hg⟩
    · simp only [handledBy, htrace, List.countP_append, List.countP_map] at hhandled ⊢
      rw [hhandled]
      simp only [Function.comp_def]
      omega
    · simp only [ticksEnded, htrace, List.countP_append, List.countP_map] at hended ⊢
      rw [hended]
      simp only [Function.comp_def]
      omega
    · rintro x calls rfl rfl rfl
      have henter : l = .enter x := hstep.enter_of_stack htrace (hstack'.trans (by rw [hstack]; rfl))
      subst henter
      exact clean_of_enter hok hstep.enters

/-- Only the message that is at hand is handled next. -/
theorem Transit.eq_of_handles (ht : Transit a b i j msg p lat w h d μ) (hμ : μ.Fits w)
    (hstays : μ.within → ∀ c, w.inhabitants.find? c = some j ↔ c = b) (hh : h = p) {x : Message UInt32} {rest : List (NetworkCall N)}
    (htop : μ.stack = .app j (.base (.handleMessage x)) :: rest) : x = msg ∧ d = lat := by
  cases ht with
  | passing hx => rcases hx with rfl | rfl | rfl <;> cases htop
  | @queued before queue h d μ hq hp hcoming =>
    exfalso
    cases μ with
    | between calls =>
      cases hcoming with
      | passed _ h _ => exact h
      | soon h => exact h
      | idle _ hclean =>
        obtain rfl : calls = _ := htop
        cases hclean _ List.mem_cons_self rfl
    | ticking c k calls =>
      have hkj : k ≠ j := hcoming.ne_turn (fun c => (hstays trivial c).1) rfl hμ.1
      obtain ⟨-, hne, rfl | hcalls⟩ := hμ
      · cases htop
      · cases calls with
        | nil => exact absurd rfl hne
        | cons y calls =>
          obtain ⟨rfl, -⟩ := List.cons.inj htop
          obtain ⟨k', c', hkc, hrun⟩ := hcalls _ List.mem_cons_self
          cases hkc
          rw [decide_eq_false (Ne.symm hkj)] at hrun
          cases hrun
    | passing c k total y =>
      obtain ⟨-, ⟨m, rfl⟩ | ⟨m, k, -, rfl | rfl⟩⟩ := hμ <;> cases htop
    | puttingBack c k y =>
      obtain ⟨-, m, rfl | rfl⟩ := hμ <;> cases htop
    | _ => cases htop
  | draining hq hp =>
    obtain ⟨rfl, -⟩ := List.cons.inj htop
    simp [NetworkCall.handles] at hp
    omega
  | atHand =>
    cases htop
    exact ⟨rfl, rfl⟩
  | handled hp => omega

/-- Between two ticks a message waits for no more than its latency. -/
theorem Transit.le_of_idle (ht : Transit a b i j msg p lat w h d (.between [])) : p < h ∨ d ≤ lat := by
  cases ht with
  | queued _ _ hcoming =>
    right
    cases hcoming with
    | passed hlat => omega
    | idle hlat => omega
    | soon => exact le_refl _
  | handled hp => exact Or.inl hp

end LatencyAux

open LatencyAux

/-- A message is handled in the tick in which it was passed along or in the next one, as the addresses have it, and no later. -/
theorem handled_in_time {Γ : Ctx} {a b : UInt32} {j : Fin N} {msg : Message UInt32} {m₁ m : NetworkConfig N}
    (hs : Sending Γ m₁ a b j msg) (hr : Run (networkProgram Γ N) (stays b j) m₁ m) (hidle : m.stack = [])
    (hended : ticksEnded m₁.trace + latency a b < ticksEnded m.trace) :
    handledBy j m₁.trace + (m₁.state.applications j).inqueue.length < handledBy j m.trace := by
  obtain ⟨i, μ, h, d, hstack, -, -, hhandled, hticks, ht⟩ := onItsWay_of_run hs hr
  obtain rfl : μ = .between [] := eq_between_of_nil (hstack.symm.trans hidle)
  rcases ht.le_of_idle with h | h <;> omega

/-- A message takes as many ticks as the order of its addresses says. -/
theorem Delivery.ticks_eq {Γ : Ctx} (D : Delivery Γ N) : D.ticks = latency D.source D.destination := by
  obtain ⟨⟨rest, htop⟩, hcount⟩ := D.comes
  obtain ⟨i, μ, h, d, hstack, hfits, hin, hhandled, hticks, ht⟩ := onItsWay_of_run D.sending D.run
  obtain ⟨-, rfl⟩ := ht.eq_of_handles hfits hin (by omega) (hstack.symm.trans htop)
  unfold Delivery.ticks
  omega

/-- Messages take the same number of ticks just when they go in the same direction of the order of the addresses. -/
theorem latency_by_direction {N' : Nat} {Γ Γ' : Ctx} (D : Delivery Γ N) (D' : Delivery Γ' N') :
    D.ticks = D'.ticks ↔ (D.source < D.destination ↔ D'.source < D'.destination) := by
  rw [D.ticks_eq, D'.ticks_eq]
  unfold latency
  split_ifs with h h' h'
  · exact iff_of_true rfl (iff_of_true h h')
  · exact iff_of_false (by simp) (fun hiff => h' (hiff.1 h))
  · exact iff_of_false (by simp) (fun hiff => h (hiff.2 h'))
  · exact iff_of_true rfl (iff_of_false h h')

/-- The addresses of a node. -/
def addressesOf (j : Fin N) (w : CentralizedNetwork N) : List UInt32 :=
  (w.inhabitants.entries.filter (fun e => decide (e.2 = j))).map (·.1)

theorem only_address {w : CentralizedNetwork N} {b : UInt32} {j : Fin N} (h : addressesOf j w = [b]) (c : UInt32) :
    w.inhabitants.find? c = some j ↔ c = b := by
  rw [SortedMap.find?_eq_some_iff, ← List.mem_singleton, ← h]
  simp [addressesOf]

/-- Two lists of steps make a delivery: the first passes a message along, and the second leads to its handler. -/
theorem exists_delivery (Γ : Ctx) (a b : UInt32) (j : Fin N) (ls ls' : List (NetworkLabel N)) (hab : a ≠ b)
    (h : (follow (networkProgram Γ N) (fun _ _ => true) (sampleNetwork 1024) ls).any (fun m₁ =>
      match m₁.stack with
      | [.passAlongMessage msg, .outbound _ _, .inhabitant after, .endTick] =>
        decide (after = some a) && decide (msg.destination = b) && decide (addressesOf j m₁.state = [b]) &&
          decide ((m₁.state.applications j).inqueue.length < inqueueLimit) &&
          (follow (networkProgram Γ N)
            (fun m l => decide (addressesOf j m.state = [b]) && !(m.state.applications j).dead &&
              match l with | .enter x => decide (x = .tick) | _ => true) m₁ ls').any (fun m =>
            match m.stack with
            | .app k (.base (.handleMessage x)) :: _ => decide (k = j) && decide (x = msg) &&
              decide (handledBy j m.trace = handledBy j m₁.trace + (m₁.state.applications j).inqueue.length)
            | _ => false)
      | _ => false) = true) : ∃ D : Delivery Γ N, D.source = a ∧ D.destination = b := by
  obtain ⟨m₁, hr, hm₁⟩ := exists_run_of_follow _ _ _ _ _ h
  split at hm₁
  · rename_i msg i total after hstack
    simp only [Bool.and_eq_true, decide_eq_true_eq] at hm₁
    obtain ⟨⟨⟨⟨rfl, hdest⟩, honly⟩, hroom⟩, hm⟩ := hm₁
    obtain ⟨m, hrun, hcomes⟩ := exists_run_of_follow _ _ _ _ _ hm
    split at hcomes
    · rename_i k x rest htop
      simp only [Bool.and_eq_true, decide_eq_true_eq] at hcomes
      obtain ⟨⟨rfl, rfl⟩, hcount⟩ := hcomes
      have hsending : Sending Γ m₁ a b k x :=
        ⟨⟨_, _, _, _, run_anyStep hr⟩, ⟨i, total, hstack⟩, hdest, only_address honly, hab, hroom⟩
      have hstays : Run (networkProgram Γ N) (stays b k) m₁ m := by
        refine hrun.mono (fun m l hok => ?_)
        simp only [Bool.and_eq_true, decide_eq_true_eq, Bool.not_eq_true'] at hok
        obtain ⟨⟨honly, hlive⟩, hl⟩ := hok
        refine ⟨only_address honly, hlive, ?_, ?_⟩ <;>
          · rintro rfl
            cases hl
      exact ⟨⟨a, b, k, x, m₁, m, hsending, hstays, ⟨rest, htop⟩, hcount⟩, rfl, rfl⟩
    · cases hcomes
  · cases hm₁

/-- Two nodes join, and the first one pings the second. -/
def joinAndPing {N : Nat} (i j : Fin N) : List (NetworkLabel N) :=
  [.enter (.add i)] ++ networkRuns 5 1 9 ++ [.enter (.add j)] ++ networkRuns 7 10 9 ++ [.enter (.app i (.ping 7 .empty))] ++
    networkRuns 0 19 2 ++ [.enter .tick]

/-- Node zero pings node one. -/
theorem exists_pingDelivery : ∃ D : Delivery .reference 2, D.source = 5 ∧ D.destination = 7 :=
  exists_delivery .reference 5 7 1 (joinAndPing 0 1 ++ networkRuns 0 25 11) (networkRuns 0 36 9) (by decide) (by decide +kernel)

/-- Node one answers. -/
theorem exists_answerDelivery : ∃ D : Delivery .reference 2, D.source = 7 ∧ D.destination = 5 :=
  exists_delivery .reference 7 5 0 (joinAndPing 0 1 ++ networkRuns 0 25 30)
    (networkRuns 0 55 6 ++ [.enter .tick] ++ networkRuns 0 61 6) (by decide) (by decide +kernel)

/-- The ping takes as many ticks as a ping from the same address in a network in which the nodes joined the other way round, and not
as many as its answer. -/
theorem latency_by_direction_sample : ∃ D D' D'' : Delivery .reference 2, D.ticks = D'.ticks ∧ D.ticks ≠ D''.ticks := by
  obtain ⟨D, hsource, hdest⟩ := exists_pingDelivery
  obtain ⟨D', hsource', hdest'⟩ := exists_delivery .reference 5 7 (0 : Fin 2) (joinAndPing 1 0 ++ networkRuns 0 25 11)
    (networkRuns 0 36 9) (by decide) (by decide +kernel)
  obtain ⟨D'', hsource'', hdest''⟩ := exists_answerDelivery
  refine ⟨D, D', D'', (latency_by_direction D D').2 ?_, mt (latency_by_direction D D'').1 ?_⟩
  · rw [hsource, hdest, hsource', hdest']
  · rw [hsource, hdest, hsource'', hdest'']
    decide

/-- Of two nodes that ping each other, the one with the smaller address has its ping handled in the same tick, and the answer
in the next one. -/
theorem latency_by_direction_false : ∃ D D' : Delivery .reference 2, D.source = D'.destination ∧ D.destination = D'.source ∧
    D.ticks = 0 ∧ D'.ticks = 1 := by
  obtain ⟨D, hsource, hdest⟩ := exists_pingDelivery
  obtain ⟨D', hsource', hdest'⟩ := exists_answerDelivery
  refine ⟨D, D', hsource.trans hdest'.symm, hdest.trans hsource'.symm, ?_, ?_⟩
  · rw [D.ticks_eq, hsource, hdest]
    rfl
  · rw [D'.ticks_eq, hsource', hdest']
    rfl

end Dhtsim
