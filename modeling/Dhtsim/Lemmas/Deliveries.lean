import Dhtsim.Lemmas.NodeTicks

/-!
# Messages on their way

In a network without churn, in which no limit is hit, no message is lost: what a node sends waits in its outbound queue until its
turn, in which the network takes all of the queue, and what comes to a node waits in its inbound queue until its next tick, in
which it handles all of that.
-/

namespace Dhtsim

open CallMachine KademliaNode

variable {N : Nat}

/-- The call kills no node and removes none, and it does not hit the limit of a queue or of a link. -/
def NetworkCall.unhindered (w : CentralizedNetwork N) : NetworkCall N → Bool
  | .app _ (.base .die) => false
  | .remove _ => false
  | .app i (.base (.recv _)) => decide ((w.applications i).inqueue.length < inqueueLimit)
  | .app i (.base (.send _ _ _ _)) => decide ((w.applications i).outqueue.length < outqueueLimit)
  | .app i (.base (.attemptRetry _)) => decide ((w.applications i).outqueue.length < outqueueLimit)
  | .outbound i total => (w.applications i).outqueue.head?.all (fun m => decide (total + m.data.length ≤ w.linkLimit.toNat))
  | _ => true

/-- The call that a step runs, if it runs one, is unhindered. -/
def Unhindered (w : CentralizedNetwork N) (ran : List (NetworkCall N)) : Prop := ∀ x ∈ ran, x.unhindered w = true

variable {Γ : Ctx} {ch : NetworkChoice} {w w' : CentralizedNetwork N} {μ μ' : Moment N} {ran : List (NetworkCall N)}
  {x : NetworkCall N} {i j : Fin N} {c : Call} {msg : Message UInt32}

/-- What a step runs, if it runs something, was on top of the stack. -/
theorem ran_cases {m m' : NetworkConfig N} {l : NetworkLabel N} (hs : Step (networkProgram Γ N) m l m')
    (htrace : m'.trace = ran.map (fun x => (x, ch)) ++ m.trace) :
    ran = [] ∨ ∃ x rest, l = .run ch ∧ m.stack = x :: rest ∧ ran = [x] := by
  cases hs with
  | @run r x rest w tr w' cs hw he =>
    have hran : [(x, r)] = ran.map (fun x => (x, ch)) := List.append_cancel_right htrace
    cases ran with
    | nil => cases hran
    | cons z zs =>
      obtain ⟨heq, hnil⟩ := List.cons.inj hran
      obtain ⟨rfl, rfl⟩ := Prod.mk.inj heq
      obtain rfl : zs = [] := List.map_eq_nil_iff.1 hnil.symm
      exact Or.inr ⟨x, rest, rfl, rfl, rfl⟩
  | _ =>
    have hran : [] = ran.map (fun x => (x, ch)) := List.append_cancel_right htrace
    exact Or.inl (List.map_eq_nil_iff.1 hran.symm)

/-- What holds of the call on top of the stack of a step that runs it holds of the call that the step runs. -/
theorem forall_ran {p : NetworkCall N → Prop} {m m' : NetworkConfig N} {l : NetworkLabel N}
    (hs : Step (networkProgram Γ N) m l m') (htrace : m'.trace = ran.map (fun x => (x, ch)) ++ m.trace)
    (h : ∀ x rest, l = .run ch → m.stack = x :: rest → p x) : ∀ x ∈ ran, p x := by
  intro y hy
  rcases ran_cases hs htrace with rfl | ⟨x, rest, hl, hstack, rfl⟩
  · cases hy
  · rw [List.mem_singleton.1 hy]
    exact h x rest hl hstack

theorem Unhindered.ne_remove (hok : Unhindered w ran) : ∀ i, ran ≠ [.remove i] := by
  rintro i rfl
  cases hok _ List.mem_cons_self

/-- The next epoch, if `Time` does not wrap. -/
theorem toNat_epoch_succ {e : Time} (h : e.toNat + 1 < 2 ^ 64) : (e + 1).toNat = e.toNat + 1 := by
  rw [UInt64.toNat_add]
  simp only [UInt64.reduceToNat]
  omega

/-- Nobody dies. -/
theorem live_proceeds (hg : Proceeds Γ ch w μ ran w' μ') (hok : Unhindered w ran) (hlive : ∀ i, (w.applications i).dead = false) :
    ∀ i, (w'.applications i).dead = false := by
  intro i
  rcases hg.node i with ⟨c, q, rfl, hq, heq⟩ | ⟨a, out, heq⟩
  · rw [heq, KademliaNode.exec_dead hq, hlive i]
    rintro rfl
    cases hok _ List.mem_cons_self
  · rw [heq]
    exact hlive i

/-- A node is ticked at the epoch of the network. -/
theorem epoch_exec (hg : Proceeds Γ ch w μ [.app i c] w' μ') (htick : NodeTick w μ.calls) {ch : Choice}
    {p : KademliaNode × List Call} (he : exec Γ ch c (w.applications i) = some p) :
    p.1.epoch = w.epoch ∨ p.1.epoch = (w.applications i).epoch := by
  rcases exec_epoch he with ⟨t, rfl, -, ht⟩ | hsame
  · obtain ⟨rest, cs, hcalls, -, -⟩ := hg.on_top (by simp) (by simp [putBack])
    rw [hcalls] at htick
    rcases htick.of_part_tick rfl with h | h | h | h | ⟨h, -⟩ | ⟨h, -⟩
    · cases h
    · cases h
    · cases h
      exact Or.inl ht
    · cases h
    · cases h
    · cases h
  · exact Or.inr hsame

/-- What only the node itself does in its turn is done by the one that has the turn. -/
theorem turn_eq {a : UInt32} {calls : List (NetworkCall N)} (hμ : (Moment.ticking a i calls).Fits w) (hmem : .app j c ∈ calls)
    (hown : c.runsInTurn false = false) : j = i := by
  obtain ⟨-, -, rfl | hcalls⟩ := hμ
  · cases List.mem_singleton.1 hmem
  · obtain ⟨j', c', heq, hrun⟩ := hcalls _ hmem
    cases heq
    by_contra hne
    rw [decide_eq_false hne, hown] at hrun
    cases hrun

/-- A step that runs a call of a node runs it between two ticks, or in a turn, and there the calls that it makes and those
that wait go on. -/
theorem turn_cases {rest cs : List (NetworkCall N)} (hg : Proceeds Γ ch w μ ran w' μ') (hμ : μ.Fits w)
    (hcalls : μ.calls = x :: rest) (hcalls' : μ'.calls = cs ++ rest) (hran : ran ≠ []) :
    (¬ μ'.within ∧ μ ≠ .finish) ∨ ∃ a i, μ = .ticking a i (x :: rest) ∧ μ' = Moment.inTurn a i (cs ++ rest) := by
  cases μ with
  | between calls =>
    left
    cases hg with
    | aside => exact ⟨not_false, by simp⟩
    | comes | returns | begins => exact absurd rfl hran
  | ticking a i calls =>
    right
    obtain rfl : calls = x :: rest := hcalls
    obtain ⟨-, calls', rfl⟩ := hg.ticking
    rw [calls_inTurn] at hcalls'
    exact ⟨a, i, rfl, by rw [hcalls']⟩
  | _ => cases hcalls

/-! ## What a node still does in its tick -/

/-- In the turn of the node one of its calls of the kind waits. -/
def Leads (p : Call → Bool) (i : Fin N) (μ : Moment N) : Prop :=
  ∃ a calls, μ = .ticking a i calls ∧ ∃ c, p c = true ∧ (.call i c ∈ calls ∨ .app i c ∈ calls)

/-- The calls that lead from the tick of a node to its loop over the inbound messages. -/
def drains : Call → Bool
  | .tick _ => true
  | .base (.tick _) => true
  | .base .drain => true
  | _ => false

theorem of_drains (h : drains c = true) : (∃ t, c = .tick t) ∨ (∃ t, c = .base (.tick t)) ∨ c = .base .drain := by
  cases c with
  | base b =>
    cases b with
    | tick t => exact Or.inr (Or.inl ⟨t, rfl⟩)
    | drain => exact Or.inr (Or.inr rfl)
    | _ => cases h
  | tick t => exact Or.inl ⟨t, rfl⟩
  | _ => cases h

/-- The turn of the node is not over: the loop over its outbound messages is still to end. -/
def Flushes (i : Fin N) (μ : Moment N) : Prop :=
  ∃ a, (∃ calls, μ = .ticking a i calls) ∨ (∃ total, μ = .emptying a i total) ∨ ∃ total x, μ = .passing a i total x

theorem leads_of_mem {p : Call → Bool} {a : UInt32} {calls : List (NetworkCall N)} (hc : p c = true)
    (hmem : .call i c ∈ calls ∨ .app i c ∈ calls) : Leads p i (Moment.inTurn a i calls) := by
  cases calls with
  | nil => rcases hmem with h | h <;> cases h
  | cons x calls => exact ⟨a, x :: calls, rfl, c, hc, hmem⟩

/-- If a call of the kind makes another one, then one waits until the last of them has run. -/
theorem Leads.proceeds {p : Call → Bool} (h : Leads p i μ) (hg : Proceeds Γ ch w μ ran w' μ') (hcode : p .userCode = false)
    (hnext : ∀ c cs, p c = true → ran = [.app i c] → CentralizedNetwork.exec Γ ch (.app i c) w = some (w', cs) →
      ∃ c', p c' = true ∧ .app i c' ∈ cs) : Leads p i μ' := by
  obtain ⟨a, calls, rfl, c, hc, hmem⟩ := h
  obtain ⟨-, calls', rfl⟩ := hg.ticking
  have hne : c ≠ .userCode := by
    rintro rfl
    rw [hcode] at hc
    cases hc
  rcases hmem with hmem | hmem
  · rcases hg.call hmem rfl with hstays | ⟨rest, cs, -, -, he, hcalls'⟩
    · rw [calls_inTurn] at hstays
      exact leads_of_mem hc (Or.inl hstays)
    · cases he
      rw [calls_inTurn] at hcalls'
      rw [hcalls']
      exact leads_of_mem hc (Or.inr List.mem_cons_self)
  · have hwait : NetworkCall.isUserCode (.app i c) = false := by
      cases c with
      | userCode => exact absurd rfl hne
      | _ => rfl
    rcases hg.call hmem hwait with hstays | ⟨rest, cs, -, hran, he, hcalls'⟩
    · rw [calls_inTurn] at hstays
      exact leads_of_mem hc (Or.inr hstays)
    · obtain ⟨c', hc', hmem'⟩ := hnext c cs hc hran he
      rw [calls_inTurn] at hcalls'
      rw [hcalls']
      exact leads_of_mem hc' (Or.inr (List.mem_append_left _ hmem'))

/-- A live node that has messages to handle goes on to its loop over them. -/
theorem drains_exec {cs : List (NetworkCall N)} (he : CentralizedNetwork.exec Γ ch (.app j c) w = some (w', cs))
    (hc : drains c = true) (hlive : (w.applications j).dead = false) (hq : (w.applications j).inqueue ≠ []) :
    ∃ c', drains c' = true ∧ .app j c' ∈ cs := by
  obtain ⟨q, hexec, heq⟩ := CentralizedNetwork.exec_app he
  obtain ⟨rfl, rfl⟩ := Prod.mk.inj heq
  rcases of_drains hc with ⟨t, rfl⟩ | ⟨t, rfl⟩ | rfl
  · cases hexec
    exact ⟨.base (.tick t), rfl, List.mem_cons_self⟩
  · simp only [exec, execBase, BaseApplication.exec, hlive, Bool.false_eq_true, if_false, Option.some.injEq] at hexec
    subst hexec
    exact ⟨.base .drain, rfl, List.mem_cons_self⟩
  · cases hin : (w.applications j).inqueue with
    | nil => exact absurd hin hq
    | cons m rest =>
      simp only [exec, execBase, BaseApplication.exec, hin, Option.some.injEq] at hexec
      subst hexec
      exact ⟨.base .drain, rfl, List.mem_cons_of_mem _ List.mem_cons_self⟩

theorem drains_proceeds (h : Awaits (Leads drains j) j w μ) (hg : Proceeds Γ ch w μ ran w' μ') (htick : NodeTick w μ.calls)
    (hlive : ∀ i, (w.applications i).dead = false) (hok : Unhindered w ran) (hq : (w.applications j).inqueue ≠ []) :
    Awaits (Leads drains j) j w' μ' := by
  refine h.proceeds hg htick hok.ne_remove (fun a => ?_) (fun hnow => ?_)
  · exact ⟨a, _, rfl, .tick w.epoch, rfl, Or.inl List.mem_cons_self⟩
  · exact hnow.proceeds hg rfl (fun c cs hc _ he => drains_exec he hc (hlive j) hq)

/-- The turn of a node goes on as long as it has messages to send. -/
theorem flushes_proceeds (h : Awaits (Flushes i) i w μ) (hg : Proceeds Γ ch w μ ran w' μ') (htick : NodeTick w μ.calls)
    (hok : Unhindered w ran) (hne : μ.calls ≠ [] ∨ (w.applications i).outqueue ≠ []) : Awaits (Flushes i) i w' μ' := by
  refine h.proceeds hg htick hok.ne_remove (fun a => ⟨a, Or.inl ⟨_, rfl⟩⟩) ?_
  rintro ⟨a, ⟨calls, rfl⟩ | ⟨total, rfl⟩ | ⟨total, x, rfl⟩⟩
  · obtain ⟨-, calls', rfl⟩ := hg.ticking
    cases calls' with
    | nil => exact ⟨a, Or.inr (Or.inl ⟨0, rfl⟩)⟩
    | cons x calls' => exact ⟨a, Or.inl ⟨_, rfl⟩⟩
  · have hq : (w.applications i).outqueue ≠ [] := hne.resolve_left (fun h => h rfl)
    cases hg with
    | empty hnil => exact absurd hnil hq
    | drops hcons hsize =>
      have hroom := hok _ List.mem_cons_self
      simp only [NetworkCall.unhindered, hcons, List.head?_cons, Option.all_some, decide_eq_true_eq] at hroom
      omega
    | exceeds hcons hsize hlimit =>
      have hroom := hok _ List.mem_cons_self
      simp only [NetworkCall.unhindered, hcons, List.head?_cons, Option.all_some, decide_eq_true_eq] at hroom
      omega
    | passes => exact ⟨a, Or.inr (Or.inr ⟨_, _, rfl⟩)⟩
  · cases hg with
    | nobody => exact ⟨a, Or.inr (Or.inl ⟨_, rfl⟩)⟩
    | delivers => exact ⟨a, Or.inr (Or.inr ⟨_, _, rfl⟩)⟩
    | hands => exact ⟨a, Or.inr (Or.inr ⟨_, _, rfl⟩)⟩
    | takes => exact ⟨a, Or.inr (Or.inl ⟨_, rfl⟩)⟩

/-- At the end of a tick nothing is left to be done in it. -/
theorem not_awaits_finish {now : Moment N → Prop} (hnow : ¬ now .finish) : ¬ Awaits now i w .finish := by
  rintro ⟨-, hidle | ⟨a, -, hbefore⟩ | h⟩
  · exact hidle trivial
  · exact hbefore
  · exact hnow h

theorem not_leads_finish {p : Call → Bool} : ¬ Leads p i (.finish : Moment N) := by
  rintro ⟨a, calls, h, -⟩
  cases h

theorem not_flushes_finish : ¬ Flushes i (.finish : Moment N) := by
  rintro ⟨a, ⟨calls, h⟩ | ⟨total, h⟩ | ⟨total, x, h⟩⟩ <;> cases h

/-! ## From queue to queue -/

/-- A message that is sent is at the end of the outbound queue. -/
theorem outqueue_send {cb : CallbackSet SendFn} {r : UInt32} {t : UInt64} {cs : List (NetworkCall N)}
    (he : CentralizedNetwork.exec Γ ch (.app i (.base (.send msg cb r t))) w = some (w', cs))
    (hlive : (w.applications i).dead = false) (hroom : (w.applications i).outqueue.length < outqueueLimit) :
    msg.tagged ch.tag ∈ (w'.applications i).outqueue := by
  obtain ⟨q, hexec, heq⟩ := CentralizedNetwork.exec_app he
  obtain ⟨rfl, -⟩ := Prod.mk.inj heq
  cases hexec
  rw [CentralizedNetwork.applications_setApplication_self]
  show msg.tagged ch.tag ∈ (BaseApplication.send ch.tag msg cb r t (w.applications i).toBaseApplication).1.outqueue
  rw [BaseApplication.send_outqueue hlive, if_pos hroom]
  exact List.mem_append_right _ (List.mem_singleton_self _)

/-- What the network takes from an outbound queue it passes along. -/
theorem queued_proceeds (hg : Proceeds Γ ch w μ ran w' μ') (htick : NodeTick w μ.calls) (hok : Unhindered w ran)
    (hmem : msg ∈ (w.applications i).outqueue) :
    msg ∈ (w'.applications i).outqueue ∨ (w'.inhabitants = w.inhabitants ∧
      ∃ a total, μ' = .passing a i total (.passAlongMessage msg)) := by
  by_cases hrun : ∃ total, ran = [.outbound i total]
  · obtain ⟨total, rfl⟩ := hrun
    cases hg with
    | aside hx => cases hx
    | empty hnil =>
      rw [hnil] at hmem
      cases hmem
    | drops hcons hsize =>
      have hroom := hok _ List.mem_cons_self
      simp only [NetworkCall.unhindered, hcons, List.head?_cons, Option.all_some, decide_eq_true_eq] at hroom
      omega
    | exceeds hcons hsize hlimit =>
      have hroom := hok _ List.mem_cons_self
      simp only [NetworkCall.unhindered, hcons, List.head?_cons, Option.all_some, decide_eq_true_eq] at hroom
      omega
    | passes hcons hlimit =>
      rw [hcons] at hmem
      rcases List.mem_cons.1 hmem with rfl | hmem
      · exact Or.inr ⟨rfl, _, _, rfl⟩
      · left
        rw [CentralizedNetwork.applications_setApplication_self]
        show msg ∈ (w.applications i).outqueue.tail
        rw [hcons]
        exact hmem
  · obtain ⟨more, hmore⟩ := outqueue_proceeds (j := i) hg htick (fun total h => hrun ⟨total, h⟩)
    rw [hmore]
    exact Or.inl (List.mem_append_left _ hmem)

/-- What a node takes from its inbound queue it handles. -/
theorem inbound_proceeds (hg : Proceeds Γ ch w μ ran w' μ') (hmem : msg ∈ (w.applications j).inqueue) :
    msg ∈ (w'.applications j).inqueue ∨ .app j (.base (.handleMessage msg)) ∈ μ'.calls := by
  by_cases hrun : ran = [.app j (.base .drain)]
  · subst hrun
    obtain ⟨rest, cs, -, he, hcalls'⟩ := hg.on_top (by simp) (by simp [putBack])
    obtain ⟨q, hexec, heq⟩ := CentralizedNetwork.exec_app he
    obtain ⟨rfl, rfl⟩ := Prod.mk.inj heq
    rw [hcalls', CentralizedNetwork.applications_setApplication_self]
    cases hin : (w.applications j).inqueue with
    | nil =>
      rw [hin] at hmem
      cases hmem
    | cons m queue =>
      simp only [exec, execBase, BaseApplication.exec, hin, Option.some.injEq] at hexec
      subst hexec
      rw [hin] at hmem
      rcases List.mem_cons.1 hmem with rfl | hmem
      · exact Or.inr List.mem_cons_self
      · exact Or.inl hmem
  · have hdrain : ∀ x ∈ ran, x ≠ .app j (.base .drain) := by
      rintro x hx rfl
      rcases hg.exec with ⟨rfl, -⟩ | ⟨y, cs, rfl, -⟩
      · cases hx
      · exact hrun (by rw [List.mem_singleton.1 hx])
    obtain ⟨more, hmore⟩ := inqueue_proceeds hg hdrain
    rw [hmore]
    exact Or.inl (List.mem_append_left _ hmem)

/-- What is handed to a node is at the end of its inbound queue. -/
theorem inqueue_recv (hok : Unhindered w [.app j (.base (.recv msg))]) :
    msg ∈ ((w.setApplication j ((w.applications j).setBase ((w.applications j).toBaseApplication.queueIn msg))).applications
      j).inqueue := by
  have hroom : (w.applications j).inqueue.length < inqueueLimit := of_decide_eq_true (hok _ List.mem_cons_self)
  rw [CentralizedNetwork.applications_setApplication_self]
  show msg ∈ ((w.applications j).toBaseApplication.queueIn msg).inqueue
  rw [BaseApplication.queueIn_inqueue, if_pos hroom]
  exact List.mem_append_right _ (List.mem_singleton_self _)

end Dhtsim
