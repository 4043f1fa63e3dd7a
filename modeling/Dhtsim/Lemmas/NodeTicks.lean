import Dhtsim.Lemmas.Messages
import Dhtsim.Lemmas.Turns

/-!
# The tick of a node, in a network

A node that is ticked hands over its inbound messages, then looks for overdue records, then maintains its table (`NodeTick`).
Other nodes run meanwhile, when outside code uses them, but none of them is ticked.
-/

namespace Dhtsim

open CallMachine

/-- The loops of the tick of the base: over the inbound messages, and over the records. -/
inductive Loop where
  | inbound
  | records
deriving DecidableEq

/-- What a call is part of: `tick` itself and what only the network calls, the body of a loop of it, or anything else. -/
inductive Part where
  | tick
  | body (l : Loop)
  | other
deriving DecidableEq

def Call.part : Call → Part
  | .tick _ => .tick
  | .base (.tick _) => .tick
  | .base .drain => .tick
  | .base (.recv _) => .tick
  | .base .unqueueOut => .tick
  | .base (.setAddress _) => .tick
  | .base .die => .tick
  | .maintenanceCheck => .tick
  | .runTableMaintenance => .tick
  | .base (.handleMessage _) => .body .inbound
  | .base (.receive _) => .body .inbound
  | .dispatch _ => .body .inbound
  | .handleFindNodes _ _ => .body .inbound
  | .handleStore _ _ => .body .inbound
  | .base (.overdue _) => .body .records
  | .base (.attemptRetry _) => .body .records
  | _ => .other

/-- A call that may run in a loop of the tick of a node: one of the body, inside the node, or one that belongs to no tick. -/
def NetworkCall.InLoop {N : Nat} (l : Loop) (i : Fin N) (x : NetworkCall N) : Prop :=
  ∃ j c, x = .app j c ∧ (c.part = .other ∨ c.part = .body l ∧ j = i)

/-- What is left of the tick of a node under a loop. -/
def Loop.under {N : Nat} (i : Fin N) : Loop → List (NetworkCall N)
  | .inbound =>
    [.app i (.base .drain), .app i (.base (.overdue none)), .app i .maintenanceCheck, .app i .refreshCheck]
  | .records => [.app i .maintenanceCheck, .app i .refreshCheck]

/-- The node lives at some address. -/
def CentralizedNetwork.inhabited {N : Nat} (w : CentralizedNetwork N) (i : Fin N) : Prop :=
  ∃ a, w.inhabitants.find? a = some i

/-- The epoch of the node is that of the network, if it is alive. -/
def CentralizedNetwork.upToDate {N : Nat} (w : CentralizedNetwork N) (i : Fin N) : Prop :=
  (w.applications i).dead = false → (w.applications i).epoch = w.epoch

/-- Where a node is in its tick, by the calls that wait. -/
inductive NodeTick {N : Nat} (w : CentralizedNetwork N) : List (NetworkCall N) → Prop where
  | adding {i : Fin N} : NodeTick w [.add i]
  | settling {i : Fin N} {a : UInt32} (hfree : w.inhabitants.find? a = none) : NodeTick w [.settle i a]
  | removing {i : Fin N} : NodeTick w [.remove i]
  | dying {i : Fin N} : NodeTick w [.app i (.base .die)]
  | called {i : Fin N} (hi : w.inhabited i) : NodeTick w [.call i (.tick w.epoch)]
  | entered {i : Fin N} (hi : w.inhabited i) : NodeTick w [.app i (.tick w.epoch)]
  | begun {i : Fin N} (hi : w.inhabited i) :
      NodeTick w [.app i (.base (.tick w.epoch)), .app i .maintenanceCheck, .app i .refreshCheck]
  | looping {i : Fin N} {l : Loop} {above : List (NetworkCall N)} (hi : w.inhabited i) (hepoch : w.upToDate i)
      (habove : ∀ x ∈ above, x.InLoop l i) : NodeTick w (above ++ l.under i)
  | maintaining {i : Fin N} (hi : w.inhabited i) (hepoch : w.upToDate i)
      (hpos : (w.applications i).config.maintenancePeriod ≠ 0)
      (hdue : (w.applications i).epoch % (w.applications i).config.maintenancePeriod = (w.applications i).maintenanceOffset) :
      NodeTick w [.app i .runTableMaintenance, .app i .refreshCheck]
  | quiet {calls : List (NetworkCall N)} (hcalls : ∀ x ∈ calls, ∃ j c, x = .app j c ∧ c.part = .other) : NodeTick w calls

/-- The calls that wait above those of the loops of the network. -/
def Moment.calls {N : Nat} : Moment N → List (NetworkCall N)
  | .between calls => calls
  | .ticking _ _ calls => calls
  | _ => []

variable {N : Nat} {Γ : Ctx} {ch : NetworkChoice} {w w' : CentralizedNetwork N} {μ μ' : Moment N} {x : NetworkCall N}
  {cs calls : List (NetworkCall N)} {i j : Fin N} {c : Call} {l : Loop} {m : NetworkConfig N}

@[simp] theorem calls_inTurn (a : UInt32) : (Moment.inTurn a i calls).calls = calls := by
  cases calls <;> rfl

/-! ## The parts of a tick -/

/-- What the body of a call makes is part of what the call is part of. -/
theorem part_of_makes {ch : Choice} {n : KademliaNode} {y : Call} (h : KademliaNode.Makes Γ ch n c y) (hc : c.part ≠ .tick) :
    y.part = .other ∨ y.part = c.part := by
  cases h with
  | tickDrain | tickOverdue | drainMessage | drainNext | tickBase | tickMaintenance | tickRefresh | maintenance | republish =>
    exact absurd rfl hc
  | receive | dispatch | findNodes | storeRequested | retry | overdueNext => exact Or.inr rfl
  | _ => exact Or.inl rfl

theorem part_of_isPublic (h : c.isPublic = true) : c.part = .other := by
  cases c with
  | base b => cases h
  | ping | lookup | store | storeAt | observe => rfl
  | _ => cases h

theorem part_ne_tick (h : (NetworkCall.app j c).InLoop l i) : c.part ≠ .tick := by
  obtain ⟨j', c', heq, hc⟩ := h
  cases heq
  rcases hc with hc | ⟨hc, -⟩
  · rw [hc]
    simp
  · rw [hc]
    simp

/-- The calls that a call inside a node makes. -/
theorem exec_app_makes (he : CentralizedNetwork.exec Γ ch (.app j c) w = some (w', cs)) :
    ∀ y ∈ cs, ∃ z, y = .app j z ∧ KademliaNode.Makes Γ ch.toChoice (w.applications j) c z := by
  obtain ⟨q, hq, heq⟩ := CentralizedNetwork.exec_app he
  obtain ⟨rfl, rfl⟩ := Prod.mk.inj heq
  intro y hy
  obtain ⟨z, hz, rfl⟩ := List.mem_map.1 hy
  exact ⟨z, rfl, KademliaNode.exec_makes hq z hz⟩

/-- What a call in a loop makes runs in the loop. -/
theorem inLoop_of_exec (hx : x.InLoop l i) (he : CentralizedNetwork.exec Γ ch x w = some (w', cs)) :
    ∀ y ∈ cs, y.InLoop l i := by
  obtain ⟨j, c, rfl, hc⟩ := id hx
  intro y hy
  obtain ⟨z, rfl, hmakes⟩ := exec_app_makes he y hy
  refine ⟨j, z, rfl, ?_⟩
  rcases part_of_makes hmakes (part_ne_tick hx) with h | h
  · exact Or.inl h
  · rw [h]
    exact hc

/-- A call that is not part of a tick leaves who is alive, and the epochs. -/
theorem upToDate_of_exec (he : CentralizedNetwork.exec Γ ch (.app j c) w = some (w', cs)) (hc : c.part ≠ .tick)
    (h : w.upToDate i) : w'.upToDate i := by
  obtain ⟨-, hnow, -⟩ := exec_app_frame he
  intro hlive
  rcases CentralizedNetwork.applications_cases he i with hsame | ⟨c', q, hx, hq, hsame⟩ | ⟨total, hx, -⟩ | ⟨a, hx, -⟩
  · have hsame : w'.applications i = w.applications i := hsame
    rw [hsame] at hlive ⊢
    exact (h hlive).trans hnow.symm
  · obtain ⟨rfl, rfl⟩ := NetworkCall.app.inj hx
    have hsame : w'.applications j = q.1 := hsame
    have hdead : q.1.dead = (w.applications j).dead := by
      refine KademliaNode.exec_dead hq ?_
      rintro rfl
      exact hc rfl
    have hepoch : q.1.epoch = (w.applications j).epoch := by
      refine (KademliaNode.exec_epoch hq).resolve_left ?_
      rintro ⟨t, rfl, -⟩
      exact hc rfl
    rw [hsame, hdead] at hlive
    rw [hsame, hepoch, h hlive, hnow]
  · cases hx
  · cases hx

theorem inhabited_of_eq (h : w'.inhabitants = w.inhabitants) (hi : w.inhabited i) : w'.inhabited i := by
  obtain ⟨a, ha⟩ := hi
  exact ⟨a, h ▸ ha⟩

theorem upToDate_setApplication {n : KademliaNode} (h : n.dead = false → n.epoch = w.epoch) :
    (w.setApplication i n).upToDate i := by
  unfold CentralizedNetwork.upToDate
  rw [CentralizedNetwork.applications_setApplication_self]
  exact h

/-! ## From call to call -/

/-- In the tick of the base the loop over the inbound messages begins, if the node is alive. -/
theorem nodeTick_of_begun (hi : w.inhabited i)
    (he : CentralizedNetwork.exec Γ ch (.app i (.base (.tick w.epoch))) w = some (w', cs)) :
    NodeTick w' (cs ++ [.app i .maintenanceCheck, .app i .refreshCheck]) := by
  obtain ⟨q, hq, heq⟩ := CentralizedNetwork.exec_app he
  obtain ⟨rfl, rfl⟩ := Prod.mk.inj heq
  simp only [KademliaNode.exec, KademliaNode.execBase, BaseApplication.exec, Option.some.injEq] at hq
  split at hq
  · rename_i hdead
    subst hq
    have htick : NodeTick (w.setApplication i (w.applications i)) ([] ++ Loop.records.under i) := by
      refine .looping hi (upToDate_setApplication (fun hlive => ?_)) (fun y hy => absurd hy List.not_mem_nil)
      rw [hlive] at hdead
      cases hdead
    exact htick
  · subst hq
    have htick : NodeTick (w.setApplication i ((w.applications i).setBase
        { (w.applications i).toBaseApplication with epoch := w.epoch })) ([] ++ Loop.inbound.under i) :=
      .looping hi (upToDate_setApplication (fun _ => rfl)) (fun y hy => absurd hy List.not_mem_nil)
    exact htick

/-- In the loop over the inbound messages one is handled, or the loop ends. -/
theorem nodeTick_of_drain (hi : w.inhabited i) (hepoch : w.upToDate i)
    (he : CentralizedNetwork.exec Γ ch (.app i (.base .drain)) w = some (w', cs)) :
    NodeTick w' (cs ++ .app i (.base (.overdue none)) :: Loop.records.under i) := by
  obtain ⟨q, hq, heq⟩ := CentralizedNetwork.exec_app he
  obtain ⟨rfl, rfl⟩ := Prod.mk.inj heq
  simp only [KademliaNode.exec, KademliaNode.execBase, BaseApplication.exec, Option.some.injEq] at hq
  split at hq
  · subst hq
    have htick : NodeTick (w.setApplication i (w.applications i))
        ([.app i (.base (.overdue none))] ++ Loop.records.under i) := by
      refine .looping hi (upToDate_setApplication hepoch) (fun y hy => ?_)
      exact ⟨i, _, List.mem_singleton.1 hy, Or.inr ⟨rfl, rfl⟩⟩
    exact htick
  · rename_i msg rest hq
    subst hq
    have htick : NodeTick (w.setApplication i ((w.applications i).setBase
        { (w.applications i).toBaseApplication with inqueue := rest }))
        ([.app i (.base (.handleMessage msg))] ++ Loop.inbound.under i) := by
      refine .looping hi (upToDate_setApplication hepoch) (fun y hy => ?_)
      exact ⟨i, _, List.mem_singleton.1 hy, Or.inr ⟨rfl, rfl⟩⟩
    exact htick

/-- After the loops the table is maintained, if it is due. -/
theorem nodeTick_of_maintenanceCheck (hi : w.inhabited i) (hepoch : w.upToDate i)
    (he : CentralizedNetwork.exec Γ ch (.app i .maintenanceCheck) w = some (w', cs)) :
    NodeTick w' (cs ++ [.app i .refreshCheck]) := by
  obtain ⟨q, hq, heq⟩ := CentralizedNetwork.exec_app he
  obtain ⟨rfl, rfl⟩ := Prod.mk.inj heq
  simp only [KademliaNode.exec, Option.ite_none_left_eq_some, Option.some.injEq] at hq
  obtain ⟨hpos, rfl⟩ := hq
  split_ifs with hdue
  · refine .maintaining hi (upToDate_setApplication hepoch) ?_ ?_
    · rw [CentralizedNetwork.applications_setApplication_self]
      exact hpos
    · rw [CentralizedNetwork.applications_setApplication_self]
      exact hdue
  · refine .quiet (fun y hy => ?_)
    exact ⟨i, _, List.mem_singleton.1 hy, rfl⟩

/-- Where the node is after a call. -/
theorem NodeTick.exec (h : NodeTick w (x :: calls)) (he : CentralizedNetwork.exec Γ ch x w = some (w', cs)) :
    NodeTick w' (cs ++ calls) := by
  generalize hstack : x :: calls = stack at h
  cases h with
  | adding =>
    obtain ⟨rfl, rfl⟩ := List.cons.inj hstack
    cases he
    simp only [CentralizedNetwork.add]
    split_ifs with hne
    · exact .quiet (fun y hy => absurd hy List.not_mem_nil)
    · exact .settling (CentralizedNetwork.find?_getNewAddress hne)
  | @settling i a hfree =>
    obtain ⟨rfl, rfl⟩ := List.cons.inj hstack
    cases he
    exact .called ⟨a, SortedMap.find?_insert_self ..⟩
  | removing | dying =>
    obtain ⟨rfl, rfl⟩ := List.cons.inj hstack
    cases he
    exact .quiet (fun y hy => absurd hy List.not_mem_nil)
  | called hi =>
    obtain ⟨rfl, rfl⟩ := List.cons.inj hstack
    cases he
    exact .entered hi
  | entered hi =>
    obtain ⟨rfl, rfl⟩ := List.cons.inj hstack
    cases he
    exact .begun hi
  | begun hi =>
    obtain ⟨rfl, rfl⟩ := List.cons.inj hstack
    exact nodeTick_of_begun hi he
  | @looping i l above hi hepoch habove =>
    cases above with
    | nil =>
      cases l with
      | inbound =>
        obtain ⟨rfl, rfl⟩ := List.cons.inj hstack
        exact nodeTick_of_drain hi hepoch he
      | records =>
        obtain ⟨rfl, rfl⟩ := List.cons.inj hstack
        exact nodeTick_of_maintenanceCheck hi hepoch he
    | cons y above =>
      obtain ⟨rfl, hcalls⟩ := List.cons.inj hstack
      have hx := habove x List.mem_cons_self
      have hmade := inLoop_of_exec hx he
      obtain ⟨k, c, rfl, -⟩ := id hx
      have hinh : w'.inhabited i := inhabited_of_eq (exec_app_frame he).1 hi
      have htick : NodeTick w' ((cs ++ above) ++ l.under i) := by
        refine .looping hinh (upToDate_of_exec he (part_ne_tick hx) hepoch) (fun z hz => ?_)
        rcases List.mem_append.1 hz with hz | hz
        · exact hmade z hz
        · exact habove z (List.mem_cons_of_mem _ hz)
      rw [List.append_assoc] at htick
      rw [hcalls]
      exact htick
  | @maintaining i hi hepoch hpos hdue =>
    obtain ⟨rfl, rfl⟩ := List.cons.inj hstack
    refine .quiet (fun y hy => ?_)
    rcases List.mem_append.1 hy with hy | hy
    · obtain ⟨z, rfl, hmakes⟩ := exec_app_makes he y hy
      cases hmakes with
      | republish => exact ⟨i, _, rfl, rfl⟩
    · exact ⟨i, _, List.mem_singleton.1 hy, rfl⟩
  | quiet hcalls =>
    subst hstack
    obtain ⟨k, c, rfl, hc⟩ := hcalls x List.mem_cons_self
    refine .quiet (fun y hy => ?_)
    rcases List.mem_append.1 hy with hy | hy
    · obtain ⟨z, rfl, hmakes⟩ := exec_app_makes he y hy
      rcases part_of_makes hmakes (by rw [hc]; simp) with h | h
      · exact ⟨k, z, rfl, h⟩
      · exact ⟨k, z, rfl, h.trans hc⟩
    · exact hcalls y (List.mem_cons_of_mem _ hy)

/-- Outside code runs in a loop or after the tick. -/
theorem NodeTick.userCode (h : NodeTick w (.app j .userCode :: calls)) :
    (∀ k c, c.isPublic = true → NodeTick w (.app k c :: .app j .userCode :: calls)) ∧ NodeTick w calls := by
  generalize hstack : NetworkCall.app j .userCode :: calls = stack at h
  cases h with
  | @looping i l above hi hepoch habove =>
    cases above with
    | nil => cases l <;> cases hstack
    | cons y above =>
      obtain ⟨rfl, rfl⟩ := List.cons.inj hstack
      constructor
      · intro k c hc
        suffices htick : NodeTick w ((.app k c :: .app j .userCode :: above) ++ l.under i) from htick
        refine .looping hi hepoch (fun z hz => ?_)
        rcases List.mem_cons.1 hz with rfl | hz
        · exact ⟨k, c, rfl, Or.inl (part_of_isPublic hc)⟩
        · exact habove z hz
      · exact .looping hi hepoch (fun z hz => habove z (List.mem_cons_of_mem _ hz))
  | quiet hcalls =>
    subst hstack
    constructor
    · intro k c hc
      refine .quiet (fun z hz => ?_)
      rcases List.mem_cons.1 hz with rfl | hz
      · exact ⟨k, c, rfl, part_of_isPublic hc⟩
      · exact hcalls z hz
    · exact .quiet (fun z hz => hcalls z (List.mem_cons_of_mem _ hz))
  | _ => cases hstack

/-- What comes in when nothing runs. -/
theorem nodeTick_of_isEvent (hx : x.isEvent = true) (ht : x ≠ .tick) : NodeTick w [x] := by
  cases x with
  | app k c =>
    rcases Bool.or_eq_true_iff.1 hx with hc | hc
    · refine .quiet (fun y hy => ?_)
      exact ⟨k, c, List.mem_singleton.1 hy, part_of_isPublic hc⟩
    · rw [of_decide_eq_true hc]
      exact .dying
  | add k => exact .adding
  | remove k => exact .removing
  | tick => exact absurd rfl ht
  | _ => cases hx

theorem nodeTick_nil : NodeTick w [] := .quiet (fun _ h => absurd h List.not_mem_nil)

/-- Where the node is after a step. -/
theorem nodeTick_step {m' : NetworkConfig N} {lab : NetworkLabel N} {ran : List (NetworkCall N)}
    (hs : Step (networkProgram Γ N) m lab m') (hstack : m.stack = μ.stack) (hstack' : m'.stack = μ'.stack)
    (htrace : m'.trace = ran.map (fun x => (x, ch)) ++ m.trace)
    (hg : Proceeds Γ ch m.state μ ran m'.state μ') (h : NodeTick m.state μ.calls) :
    NodeTick m'.state μ'.calls := by
  obtain ⟨w, stack, tr⟩ := m
  obtain ⟨w', stack', tr'⟩ := m'
  cases hg with
  | aside hx he => exact h.exec he
  | @comes x calls hx ht =>
    obtain rfl : stack = calls := hstack
    obtain rfl : stack' = x :: stack := hstack'
    obtain rfl : lab = .enter x := hs.enter_of_stack htrace rfl
    cases hs with
    | event hevent => exact nodeTick_of_isEvent hevent ht
    | reentry hf hc =>
      obtain ⟨k, rfl⟩ := isUserCode_cases hf
      cases x with
      | app j c => exact h.userCode.1 j c hc
      | _ => cases hc
  | returns hx =>
    obtain ⟨k, rfl⟩ := isUserCode_cases hx
    exact h.userCode.2
  | turn hn => exact .called ⟨_, SortedMap.find?_eq_some_iff.2 (SortedMap.mem_of_next hn)⟩
  | handOn => exact h.exec (show CentralizedNetwork.exec Γ ch (.call _ _) w = some _ from rfl)
  | ticks he =>
    rw [calls_inTurn]
    exact h.exec he
  | reenters hx hc =>
    obtain ⟨k, rfl⟩ := isUserCode_cases hx
    exact h.userCode.1 _ _ hc
  | leaves hx =>
    obtain ⟨k, rfl⟩ := isUserCode_cases hx
    rw [calls_inTurn]
    exact h.userCode.2
  | _ => exact nodeTick_nil

/-! ## What is known where -/

/-- The body of a loop runs in the loop of an inhabitant, with the calls of the loop above what is left of the tick. -/
theorem NodeTick.of_body (h : NodeTick w (.app i c :: calls)) (hc : c.part = .body l) :
    w.inhabited i ∧ w.upToDate i ∧ ∃ above, calls = above ++ l.under i ∧ ∀ x ∈ above, x.InLoop l i := by
  generalize hstack : NetworkCall.app i c :: calls = stack at h
  cases h with
  | @looping k l' above hi hepoch habove =>
    cases above with
    | nil =>
      cases l' with
      | inbound =>
        cases hstack
        cases hc
      | records =>
        cases hstack
        cases hc
    | cons y above =>
      obtain ⟨rfl, hcalls⟩ := List.cons.inj hstack
      obtain ⟨k', c', heq, hother | ⟨hpart, rfl⟩⟩ := habove _ List.mem_cons_self
      · cases heq
        rw [hother] at hc
        cases hc
      · cases heq
        rw [hpart] at hc
        cases hc
        exact ⟨hi, hepoch, above, hcalls, fun x hx => habove x (List.mem_cons_of_mem _ hx)⟩
  | quiet hcalls =>
    subst hstack
    obtain ⟨k', c', heq, hother⟩ := hcalls _ List.mem_cons_self
    cases heq
    rw [hother] at hc
    cases hc
  | dying | entered | begun | maintaining =>
    cases hstack
    cases hc
  | _ => cases hstack

/-- A message is handled in the loop over the inbound messages of an inhabitant. -/
theorem NodeTick.of_inbound (h : NodeTick w (.app i c :: calls)) (hc : c.part = .body .inbound) :
    w.inhabited i ∧ w.upToDate i ∧ ∀ x ∈ Loop.inbound.under i, x ∈ calls := by
  obtain ⟨hi, hepoch, above, rfl, -⟩ := h.of_body hc
  exact ⟨hi, hepoch, fun x hx => List.mem_append_right _ hx⟩

/-- The calls of a tick itself: outside of one they do not run. -/
theorem NodeTick.of_part_tick (h : NodeTick w (.app i c :: calls)) (hc : c.part = .tick) :
    c = .base .die ∨ c = .tick w.epoch ∨ c = .base (.tick w.epoch) ∨ c = .base .drain ∨
      (c = .maintenanceCheck ∧ w.upToDate i) ∨
      (c = .runTableMaintenance ∧ w.inhabited i ∧ w.upToDate i ∧ (w.applications i).config.maintenancePeriod ≠ 0 ∧
        (w.applications i).epoch % (w.applications i).config.maintenancePeriod = (w.applications i).maintenanceOffset) := by
  generalize hstack : NetworkCall.app i c :: calls = stack at h
  cases h with
  | dying =>
    cases hstack
    exact Or.inl rfl
  | entered hi =>
    cases hstack
    exact Or.inr (Or.inl rfl)
  | begun hi =>
    cases hstack
    exact Or.inr (Or.inr (Or.inl rfl))
  | @looping k l above hi hepoch habove =>
    cases above with
    | nil =>
      cases l with
      | inbound =>
        cases hstack
        exact Or.inr (Or.inr (Or.inr (Or.inl rfl)))
      | records =>
        cases hstack
        exact Or.inr (Or.inr (Or.inr (Or.inr (Or.inl ⟨rfl, hepoch⟩))))
    | cons y above =>
      obtain ⟨rfl, -⟩ := List.cons.inj hstack
      exact absurd hc (part_ne_tick (habove _ List.mem_cons_self))
  | maintaining hi hepoch hpos hdue =>
    cases hstack
    exact Or.inr (Or.inr (Or.inr (Or.inr (Or.inr ⟨rfl, hi, hepoch, hpos, hdue⟩))))
  | quiet hcalls =>
    subst hstack
    obtain ⟨k', c', heq, hother⟩ := hcalls _ List.mem_cons_self
    cases heq
    rw [hother] at hc
    cases hc
  | _ => cases hstack

/-- An address is given away only once. -/
theorem NodeTick.of_settle {a : UInt32} (h : NodeTick w (.settle i a :: calls)) : w.inhabitants.find? a = none := by
  generalize hstack : NetworkCall.settle i a :: calls = stack at h
  cases h with
  | settling hfree =>
    cases hstack
    exact hfree
  | @looping k l above hi hepoch habove =>
    cases above with
    | nil => cases l <;> cases hstack
    | cons y above =>
      obtain ⟨rfl, -⟩ := List.cons.inj hstack
      obtain ⟨_, _, heq, -⟩ := habove _ List.mem_cons_self
      cases heq
  | quiet hcalls =>
    subst hstack
    obtain ⟨_, _, heq, -⟩ := hcalls _ List.mem_cons_self
    cases heq
  | _ => cases hstack

/-! ## What a step leaves -/

/-- A step runs the call on top, or leaves the network as it is. -/
theorem Proceeds.exec {ran : List (NetworkCall N)} (h : Proceeds Γ ch w μ ran w' μ') :
    (ran = [] ∧ w' = w) ∨ ∃ x cs, ran = [x] ∧ CentralizedNetwork.exec Γ ch x w = some (w', cs) := by
  cases h with
  | comes | returns | begins | reenters | leaves => exact Or.inl ⟨rfl, rfl⟩
  | aside hx he => exact Or.inr ⟨_, _, rfl, he⟩
  | ticks he => exact Or.inr ⟨_, _, rfl, he⟩
  | sends => exact Or.inr ⟨_, _, rfl, exec_putBack _ _⟩
  | _ => exact Or.inr ⟨_, _, rfl, rfl⟩

/-- A call of a node that only its loops, the outside or the maintenance make is on top of the calls when it runs. -/
theorem Proceeds.on_top (h : Proceeds Γ ch w μ [.app i c] w' μ') (hrecv : ∀ m, c ≠ .base (.recv m))
    (hsend : ∀ m, c ≠ putBack m) :
    ∃ rest cs, μ.calls = .app i c :: rest ∧ CentralizedNetwork.exec Γ ch (.app i c) w = some (w', cs) ∧
      μ'.calls = cs ++ rest := by
  cases h with
  | aside hx he => exact ⟨_, _, rfl, he, rfl⟩
  | ticks he => exact ⟨_, _, rfl, he, calls_inTurn _⟩
  | takes => exact absurd rfl (hrecv _)
  | sends => exact absurd rfl (hsend _)

theorem inqueue_exec (he : CentralizedNetwork.exec Γ ch x w = some (w', cs)) (hx : x ≠ .app j (.base .drain)) :
    ∃ more, (w'.applications j).inqueue = (w.applications j).inqueue ++ more := by
  rcases CentralizedNetwork.applications_cases he j with heq | ⟨c, q, rfl, hq, heq⟩ | ⟨total, -, heq⟩ | ⟨a, -, heq⟩ <;>
    rw [heq]
  · exact ⟨[], (List.append_nil _).symm⟩
  · rcases KademliaNode.exec_inqueue hq with hsame | ⟨rfl, -⟩ | ⟨m, -, hmore⟩
    · exact ⟨[], hsame.trans (List.append_nil _).symm⟩
    · exact absurd rfl hx
    · exact ⟨_, hmore⟩
  · exact ⟨[], (List.append_nil _).symm⟩
  · exact ⟨[], (List.append_nil _).symm⟩

/-- What waits in the inbound queue of a node stays there, in its place, until the node drains it. -/
theorem inqueue_proceeds {ran : List (NetworkCall N)} (hg : Proceeds Γ ch w μ ran w' μ')
    (hran : ∀ x ∈ ran, x ≠ .app j (.base .drain)) :
    ∃ more, (w'.applications j).inqueue = (w.applications j).inqueue ++ more := by
  rcases hg.exec with ⟨-, rfl⟩ | ⟨x, cs, rfl, he⟩
  · exact ⟨[], (List.append_nil _).symm⟩
  · exact inqueue_exec he (hran x List.mem_cons_self)

/-- What waits in the outbound queue of a node stays there, in its place, until the network takes it. -/
theorem outqueue_proceeds {ran : List (NetworkCall N)} (hg : Proceeds Γ ch w μ ran w' μ') (htick : NodeTick w μ.calls)
    (hran : ∀ total, ran ≠ [.outbound j total]) :
    ∃ more, (w'.applications j).outqueue = (w.applications j).outqueue ++ more := by
  rcases hg.exec with ⟨-, rfl⟩ | ⟨x, cs, rfl, he⟩
  · exact ⟨[], (List.append_nil _).symm⟩
  · rcases CentralizedNetwork.applications_cases he j with heq | ⟨c, q, rfl, hq, heq⟩ | ⟨total, rfl, -⟩ | ⟨a, -, heq⟩
    · exact ⟨[], (congrArg (·.outqueue) heq).trans (List.append_nil _).symm⟩
    · rcases KademliaNode.exec_outqueue hq with ⟨rfl, -⟩ | hmore
      · obtain ⟨rest, cs, hcalls, -, -⟩ := hg.on_top (by simp) (by simp [putBack])
        rw [hcalls] at htick
        rcases htick.of_part_tick rfl with h | h | h | h | ⟨h, -⟩ | ⟨h, -⟩ <;> cases h
      · exact ⟨_, (congrArg (·.outqueue) heq).trans hmore⟩
    · exact absurd rfl (hran total)
    · exact ⟨[], (congrArg (·.outqueue) heq).trans (List.append_nil _).symm⟩

/-- What a step does to a node: it runs a call of the node, or the network takes a message from it or gives it an address. -/
theorem Proceeds.node {ran : List (NetworkCall N)} (hg : Proceeds Γ ch w μ ran w' μ') (j : Fin N) :
    (∃ c q, ran = [.app j c] ∧ KademliaNode.exec Γ ch.toChoice c (w.applications j) = some q ∧ w'.applications j = q.1) ∨
      ∃ a out, w'.applications j = (w.applications j).setBase
        { (w.applications j).toBaseApplication with address := a, outqueue := out } := by
  rcases hg.exec with ⟨-, rfl⟩ | ⟨x, cs, rfl, he⟩
  · exact Or.inr ⟨_, _, rfl⟩
  · rcases CentralizedNetwork.applications_cases he j with heq | ⟨c, q, rfl, hq, heq⟩ | ⟨total, rfl, heq⟩ | ⟨a, -, heq⟩
    · exact Or.inr ⟨_, _, heq⟩
    · exact Or.inl ⟨c, q, rfl, hq, heq⟩
    · exact Or.inr ⟨_, _, heq⟩
    · exact Or.inr ⟨_, _, heq⟩

/-- A step leaves who a node is. -/
theorem identity_proceeds {ran : List (NetworkCall N)} (hg : Proceeds Γ ch w μ ran w' μ') (j : Fin N) :
    (w'.applications j).identity = (w.applications j).identity := by
  rcases hg.node j with ⟨c, q, -, hq, heq⟩ | ⟨a, out, heq⟩
  · rw [heq]
    exact KademliaNode.exec_identity hq
  · rw [heq]
    rfl

/-- A call that waits goes on waiting, or runs, or returns. -/
theorem Proceeds.waiting {ran : List (NetworkCall N)} (h : Proceeds Γ ch w μ ran w' μ') :
    (∃ new, μ'.calls = new ++ μ.calls) ∨
      (∃ x rest cs, μ.calls = x :: rest ∧ ran = [x] ∧ CentralizedNetwork.exec Γ ch x w = some (w', cs) ∧
        μ'.calls = cs ++ rest) ∨
      ∃ x rest, μ.calls = x :: rest ∧ x.isUserCode = true ∧ ran = [] ∧ w' = w ∧ μ'.calls = rest := by
  cases h with
  | aside hx he => exact Or.inr (Or.inl ⟨_, _, _, rfl, rfl, he, rfl⟩)
  | comes => exact Or.inl ⟨[_], rfl⟩
  | returns hx => exact Or.inr (Or.inr ⟨_, _, rfl, hx, rfl, rfl, rfl⟩)
  | handOn => exact Or.inr (Or.inl ⟨_, _, _, rfl, rfl, rfl, rfl⟩)
  | ticks he => exact Or.inr (Or.inl ⟨_, _, _, rfl, rfl, he, calls_inTurn _⟩)
  | reenters => exact Or.inl ⟨[_], rfl⟩
  | leaves hx => exact Or.inr (Or.inr ⟨_, _, rfl, hx, rfl, rfl, calls_inTurn _⟩)
  | _ => exact Or.inl ⟨_, (List.append_nil _).symm⟩

/-- A call of a node that waits goes on waiting, or runs. -/
theorem Proceeds.call {ran : List (NetworkCall N)} (h : Proceeds Γ ch w μ ran w' μ') (hx : x ∈ μ.calls)
    (hcode : x.isUserCode = false) :
    x ∈ μ'.calls ∨ ∃ rest cs, μ.calls = x :: rest ∧ ran = [x] ∧ CentralizedNetwork.exec Γ ch x w = some (w', cs) ∧
      μ'.calls = cs ++ rest := by
  rcases h.waiting with ⟨new, hnew⟩ | ⟨y, rest, cs, hcalls, hran, he, hcalls'⟩ | ⟨y, rest, hcalls, hy, -, -, hcalls'⟩
  · rw [hnew]
    exact Or.inl (List.mem_append_right _ hx)
  · rw [hcalls] at hx
    rcases List.mem_cons.1 hx with rfl | hx
    · exact Or.inr ⟨rest, cs, hcalls, hran, he, hcalls'⟩
    · rw [hcalls']
      exact Or.inl (List.mem_append_right _ hx)
  · rw [hcalls] at hx
    rcases List.mem_cons.1 hx with rfl | hx
    · rw [hcode] at hy
      cases hy
    · rw [hcalls']
      exact Or.inl hx

/-- Addresses that are given stay given, as long as no node is removed. -/
theorem Proceeds.find? {ran : List (NetworkCall N)} (h : Proceeds Γ ch w μ ran w' μ') (htick : NodeTick w μ.calls)
    (hstay : ∀ k, ran ≠ [.remove k]) {a : UInt32} (ha : w.inhabitants.find? a = some i) : w'.inhabitants.find? a = some i := by
  cases h with
  | @aside x cs calls w' hx he =>
    cases x with
    | settle k b =>
      cases he
      have hfree : w.inhabitants.find? b = none := htick.of_settle
      have hne : a ≠ b := by
        rintro rfl
        rw [hfree] at ha
        cases ha
      exact (SortedMap.find?_insert_of_ne _ _ hne).trans ha
    | remove k => exact absurd rfl (hstay k)
    | app k c =>
      rw [(exec_app_frame he).1]
      exact ha
    | call | add =>
      cases he
      exact ha
    | _ => cases hx
  | ticks he =>
    rw [(exec_app_frame he).1]
    exact ha
  | _ => exact ha

/-- Only the end of a tick counts the epoch. -/
theorem Proceeds.epoch {ran : List (NetworkCall N)} (h : Proceeds Γ ch w μ ran w' μ') (hμ : μ ≠ .finish) :
    w'.epoch = w.epoch := by
  cases h with
  | @aside x cs calls w' hx he =>
    cases x with
    | app k c => exact (exec_app_frame he).2.1
    | call | add | settle | remove =>
      cases he
      rfl
    | _ => cases hx
  | ticks he => exact (exec_app_frame he).2.1
  | ends => exact absurd rfl hμ
  | _ => rfl

/-- The node is still to have its turn in this tick, or in the next one when none runs, or the moment is the one in its turn
that `now` tells. -/
def Awaits {N : Nat} (now : Moment N → Prop) (i : Fin N) (w : CentralizedNetwork N) (μ : Moment N) : Prop :=
  w.inhabited i ∧ (¬ μ.within ∨ (∃ a, w.inhabitants.find? a = some i ∧ μ.before a) ∨ now μ)

/-- A node awaits its turn until it has it. -/
theorem Awaits.proceeds {ran : List (NetworkCall N)} {now : Moment N → Prop} (h : Awaits now i w μ)
    (hg : Proceeds Γ ch w μ ran w' μ') (htick : NodeTick w μ.calls) (hstay : ∀ k, ran ≠ [.remove k])
    (hstart : ∀ a, now (.ticking a i [.call i (.tick w.epoch)])) (hnow : now μ → now μ') : Awaits now i w' μ' := by
  obtain ⟨⟨a, ha⟩, hidle | ⟨b, hb, hbefore⟩ | hμ⟩ := h
  · refine ⟨⟨a, hg.find? htick hstay ha⟩, ?_⟩
    cases hg with
    | aside | comes | returns => exact Or.inl not_false
    | begins => exact Or.inr (Or.inl ⟨a, ha, trivial⟩)
    | _ => exact absurd trivial hidle
  · refine ⟨⟨a, hg.find? htick hstay ha⟩, Or.inr ?_⟩
    rcases hg.before hb hbefore with hbefore' | ⟨after, -, -, rfl, rfl⟩
    · exact Or.inl ⟨b, hg.find? htick hstay hb, hbefore'⟩
    · exact Or.inr (hstart b)
  · exact ⟨⟨a, hg.find? htick hstay ha⟩, Or.inr (Or.inr (hnow hμ))⟩

end Dhtsim
