import Dhtsim.Lemmas.Deliveries
import Dhtsim.Lemmas.Residents

/-!
# The epochs of the nodes

A node takes over the epoch of the network in its tick, so outside of it a live inhabitant is one epoch behind the network at
most, and then its turn is still to come. A node that joins has sent nothing yet, and finds no overdue records in its first tick.
-/

namespace Dhtsim

open CallMachine KademliaNode

variable {N : Nat}

/-- The calls that lead to where a node takes over the epoch. -/
def setsEpoch : Call → Bool
  | .tick _ => true
  | .base (.tick _) => true
  | _ => false

/-- Such a call waits for the node, in its turn or when it joins. -/
def Pends (i : Fin N) (μ : Moment N) : Prop := ∃ c, setsEpoch c = true ∧ (.call i c ∈ μ.calls ∨ .app i c ∈ μ.calls)

/-- The epoch of the node is that of the network, or the node is about to take it over, or it is one behind and its turn is to
come. -/
def Keeping (i : Fin N) (w : CentralizedNetwork N) (μ : Moment N) : Prop :=
  (w.applications i).epoch = w.epoch ∨ Pends i μ ∨
    ((w.applications i).epoch.toNat + 1 = w.epoch.toNat ∧ Awaits (Pends i) i w μ)

/-- The calls that lead to where a node looks for overdue records. -/
def findsOverdue : Call → Bool
  | .tick _ => true
  | .base (.tick _) => true
  | .base .drain => true
  | .base (.overdue _) => true
  | _ => false

/-- What is left of the tick of a node that joins, up to where it looks for overdue records. -/
inductive Joining (w : CentralizedNetwork N) (i : Fin N) : List (NetworkCall N) → Prop where
  | called : Joining w i [.call i (.tick w.epoch)]
  | entered : Joining w i [.app i (.tick w.epoch)]
  | begun : Joining w i [.app i (.base (.tick w.epoch)), .app i .maintenanceCheck, .app i .refreshCheck]
  | inbound : Joining w i (Loop.inbound.under i)
  | records : Joining w i (.app i (.base (.overdue none)) :: Loop.records.under i)

/-- Between two ticks only a node that joins looks for overdue records, and it has none. -/
def JoinsIdle (w : CentralizedNetwork N) (μ : Moment N) : Prop :=
  ∀ calls, μ = .between calls → ∀ i c, findsOverdue c = true → .call i c ∈ calls ∨ .app i c ∈ calls →
    ((w.applications i).callbacks.entries = [] ∧ (w.applications i).inqueue = []) ∧ Joining w i calls

variable {Γ : Ctx} {ch : NetworkChoice} {w w' : CentralizedNetwork N} {μ μ' : Moment N} {ran calls : List (NetworkCall N)}
  {x : NetworkCall N} {i j : Fin N} {c : Call} {m m' : NetworkConfig N} {l : NetworkLabel N}

theorem of_setsEpoch (h : setsEpoch c = true) : (∃ t, c = .tick t) ∨ ∃ t, c = .base (.tick t) := by
  cases c with
  | base b =>
    cases b with
    | tick t => exact Or.inr ⟨t, rfl⟩
    | _ => cases h
  | tick t => exact Or.inl ⟨t, rfl⟩
  | _ => cases h

theorem of_findsOverdue (h : findsOverdue c = true) :
    (∃ t, c = .tick t) ∨ (∃ t, c = .base (.tick t)) ∨ c = .base .drain ∨ ∃ after, c = .base (.overdue after) := by
  cases c with
  | base b =>
    cases b with
    | tick t => exact Or.inr (Or.inl ⟨t, rfl⟩)
    | drain => exact Or.inr (Or.inr (Or.inl rfl))
    | overdue after => exact Or.inr (Or.inr (Or.inr ⟨after, rfl⟩))
    | _ => cases h
  | tick t => exact Or.inl ⟨t, rfl⟩
  | _ => cases h

/-! ## What waits beside a call -/

/-- Beside a call that is part of no tick no tick of a node waits. -/
theorem NodeTick.of_other (h : NodeTick w (.app i c :: calls)) (hc : c.part = .other) :
    ∀ x ∈ calls, ∃ k c', x = .app k c' ∧ setsEpoch c' = false := by
  have hother : ∀ {c : Call}, c.part ≠ .tick → setsEpoch c = false := by
    intro c hc
    by_contra hset
    rw [Bool.not_eq_false] at hset
    rcases of_setsEpoch hset with ⟨t, rfl⟩ | ⟨t, rfl⟩ <;> exact hc rfl
  generalize hstack : NetworkCall.app i c :: calls = stack at h
  intro x hx
  cases h with
  | @looping k l above hi hepoch habove =>
    cases above with
    | nil =>
      cases l with
      | inbound =>
        cases hstack
        cases hc
      | records =>
        cases hstack
        cases hc
    | cons y above =>
      obtain ⟨rfl, rfl⟩ := List.cons.inj hstack
      rcases List.mem_append.1 hx with hx | hx
      · have hin := habove x (List.mem_cons_of_mem _ hx)
        obtain ⟨k', c', rfl, -⟩ := id hin
        exact ⟨k', c', rfl, hother (part_ne_tick hin)⟩
      · cases l with
        | inbound =>
          simp only [Loop.under, List.mem_cons, List.not_mem_nil, or_false] at hx
          rcases hx with rfl | rfl | rfl | rfl <;> exact ⟨_, _, rfl, rfl⟩
        | records =>
          simp only [Loop.under, List.mem_cons, List.not_mem_nil, or_false] at hx
          rcases hx with rfl | rfl <;> exact ⟨_, _, rfl, rfl⟩
  | quiet hcalls =>
    subst hstack
    obtain ⟨k, c', rfl, hpart⟩ := hcalls x (List.mem_cons_of_mem _ hx)
    exact ⟨k, c', rfl, hother (by rw [hpart]; simp)⟩
  | dying | entered | begun | maintaining =>
    cases hstack
    cases hc
  | _ => cases hstack

/-- In the loop over the records no message is handled, nor will one be in this tick. -/
theorem NodeTick.of_records (h : NodeTick w (.app i c :: calls)) (hc : c.part = .body .records) :
    w.upToDate i ∧ ∀ x ∈ calls, ∃ k c', x = .app k c' ∧ drains c' = false ∧ c'.part ≠ .body .inbound := by
  obtain ⟨-, hepoch, above, rfl, habove⟩ := h.of_body hc
  refine ⟨hepoch, fun x hx => ?_⟩
  rcases List.mem_append.1 hx with hx | hx
  · have hin := habove x hx
    obtain ⟨k, c', rfl, hpart⟩ := id hin
    refine ⟨k, c', rfl, ?_, ?_⟩
    · by_contra hdrain
      rw [Bool.not_eq_false] at hdrain
      rcases of_drains hdrain with ⟨t, rfl⟩ | ⟨t, rfl⟩ | rfl <;> exact part_ne_tick hin rfl
    · rcases hpart with hpart | ⟨hpart, -⟩
      · rw [hpart]
        simp
      · rw [hpart]
        simp
  · simp only [Loop.under, List.mem_cons, List.not_mem_nil, or_false] at hx
    rcases hx with rfl | rfl
    · exact ⟨_, _, rfl, rfl, fun h => by cases h⟩
    · exact ⟨_, _, rfl, rfl, fun h => by cases h⟩

/-! ## The clocks -/

/-- A node becomes an inhabitant when the network is about to tick it. -/
theorem Proceeds.inhabited (hg : Proceeds Γ ch w μ ran w' μ') (h : w'.inhabited i) :
    w.inhabited i ∨ .call i (.tick w.epoch) ∈ μ'.calls := by
  obtain ⟨a, ha⟩ := h
  cases hg with
  | @aside x cs calls w' hx he =>
    cases x with
    | settle k b =>
      cases he
      simp only [CentralizedNetwork.settle] at ha
      rw [SortedMap.find?_insert] at ha
      split at ha
      · cases ha
        exact Or.inr List.mem_cons_self
      · exact Or.inl ⟨a, ha⟩
    | remove k =>
      cases he
      simp only at ha
      rw [SortedMap.find?_erase] at ha
      split at ha
      · cases ha
      · exact Or.inl ⟨a, ha⟩
    | app k c => exact Or.inl ⟨a, (exec_app_frame he).1 ▸ ha⟩
    | call | add =>
      cases he
      exact Or.inl ⟨a, ha⟩
    | _ => cases hx
  | ticks he => exact Or.inl ⟨a, (exec_app_frame he).1 ▸ ha⟩
  | _ => exact Or.inl ⟨a, ha⟩

/-- Once its tick runs, a live node has the epoch of the network. -/
theorem Pends.proceeds (h : Pends i μ) (hg : Proceeds Γ ch w μ ran w' μ') (htick : NodeTick w μ.calls)
    (hlive : (w.applications i).dead = false) : Pends i μ' ∨ (w'.applications i).epoch = w.epoch := by
  obtain ⟨c, hc, hmem | hmem⟩ := h
  · rcases hg.call hmem rfl with hstays | ⟨rest, cs, -, -, he, hcalls'⟩
    · exact Or.inl ⟨c, hc, Or.inl hstays⟩
    · cases he
      refine Or.inl ⟨c, hc, Or.inr ?_⟩
      rw [hcalls']
      exact List.mem_cons_self
  · have hwait : NetworkCall.isUserCode (.app i c) = false := by
      rcases of_setsEpoch hc with ⟨t, rfl⟩ | ⟨t, rfl⟩ <;> rfl
    rcases hg.call hmem hwait with hstays | ⟨rest, cs, hcalls, -, he, hcalls'⟩
    · exact Or.inl ⟨c, hc, Or.inr hstays⟩
    · rcases of_setsEpoch hc with ⟨t, rfl⟩ | ⟨t, rfl⟩
      · cases he
        refine Or.inl ⟨.base (.tick t), rfl, Or.inr ?_⟩
        rw [hcalls']
        exact List.mem_cons_self
      · right
        rw [hcalls] at htick
        have ht : t = w.epoch := by
          rcases htick.of_part_tick rfl with h | h | h | h | ⟨h, -⟩ | ⟨h, -⟩ <;> cases h
          rfl
        obtain ⟨q, hexec, heq⟩ := CentralizedNetwork.exec_app he
        obtain ⟨rfl, -⟩ := Prod.mk.inj heq
        simp only [exec, execBase, BaseApplication.exec, hlive, Bool.false_eq_true, if_false, Option.some.injEq] at hexec
        subst hexec
        rw [CentralizedNetwork.applications_setApplication_self]
        exact ht

/-- The epochs of the nodes keep up with that of the network. -/
theorem keeping_proceeds (h : w.inhabited i → Keeping i w μ) (hg : Proceeds Γ ch w μ ran w' μ') (htick : NodeTick w μ.calls)
    (hlive : ∀ i, (w.applications i).dead = false) (hok : Unhindered w ran)
    (hroom : μ = .finish → w.epoch.toNat + 1 < 2 ^ 64) (hi' : w'.inhabited i) : Keeping i w' μ' := by
  rcases hg.inhabited hi' with hi | hcall
  · by_cases hμ : μ = .finish
    · subst hμ
      obtain ⟨rfl, rfl, rfl⟩ := hg.finish
      refine Or.inr (Or.inr ⟨?_, ⟨hi', Or.inl not_false⟩⟩)
      show (w.applications i).epoch.toNat + 1 = (w.epoch + 1).toNat
      rw [toNat_epoch_succ (hroom rfl)]
      rcases h hi with heq | ⟨c, -, hmem | hmem⟩ | ⟨-, hawaits⟩
      · rw [heq]
      · cases hmem
      · cases hmem
      · refine absurd hawaits (not_awaits_finish ?_)
        rintro ⟨c, -, hmem | hmem⟩ <;> cases hmem
    · have hnow := hg.epoch hμ
      by_cases hsame : (w'.applications i).epoch = (w.applications i).epoch
      · unfold Keeping
        rw [hsame, hnow]
        rcases h hi with heq | hpends | ⟨heq, hawaits⟩
        · exact Or.inl heq
        · rcases hpends.proceeds hg htick (hlive i) with hpends | heq
          · exact Or.inr (Or.inl hpends)
          · exact Or.inl (hsame.symm.trans heq)
        · by_cases hset : (w.applications i).epoch = w.epoch
          · exact Or.inl hset
          · refine Or.inr (Or.inr ⟨heq, ?_⟩)
            refine hawaits.proceeds hg htick hok.ne_remove (fun a => ⟨_, rfl, Or.inl List.mem_cons_self⟩) (fun hpends => ?_)
            exact (hpends.proceeds hg htick (hlive i)).resolve_right (fun h => hset (hsame.symm.trans h))
      · left
        rw [hnow]
        rcases hg.node i with ⟨c, q, rfl, hq, heq⟩ | ⟨a, out, heq⟩
        · rw [heq] at hsame ⊢
          exact (epoch_exec hg htick hq).resolve_right hsame
        · exact absurd (congrArg (·.epoch) heq) hsame
  · exact Or.inr (Or.inl ⟨_, rfl, Or.inl hcall⟩)

/-! ## The first tick -/

theorem inTurn_ne_between {a : UInt32} {k : Fin N} {calls calls' : List (NetworkCall N)} :
    Moment.inTurn a k calls ≠ .between calls' := by
  cases calls <;> simp [Moment.inTurn]

/-- The tick of a node that joins goes on, or is over. -/
theorem Joining.exec {cs : List (NetworkCall N)} (h : Joining w i (x :: calls))
    (hidle : (w.applications i).callbacks.entries = [] ∧ (w.applications i).inqueue = [])
    (hlive : (w.applications i).dead = false) (he : CentralizedNetwork.exec Γ ch x w = some (w', cs)) :
    ((w'.applications i).callbacks.entries = [] ∧ (w'.applications i).inqueue = []) ∧
      (Joining w' i (cs ++ calls) ∨ cs = [] ∧ calls = Loop.records.under i) := by
  generalize hstack : x :: calls = stack at h
  cases h with
  | called =>
    cases hstack
    cases he
    exact ⟨hidle, Or.inl .entered⟩
  | entered =>
    cases hstack
    cases he
    rw [CentralizedNetwork.applications_setApplication_self]
    exact ⟨hidle, Or.inl .begun⟩
  | begun =>
    cases hstack
    simp only [CentralizedNetwork.exec, exec, execBase, BaseApplication.exec, hlive, Bool.false_eq_true, if_false,
      Option.map_some, Option.some.injEq, Prod.mk.injEq] at he
    obtain ⟨rfl, rfl⟩ := he
    rw [CentralizedNetwork.applications_setApplication_self]
    exact ⟨hidle, Or.inl .inbound⟩
  | inbound =>
    cases hstack
    simp only [CentralizedNetwork.exec, exec, execBase, BaseApplication.exec, hidle.2, Option.map_some, Option.some.injEq,
      Prod.mk.injEq] at he
    obtain ⟨rfl, rfl⟩ := he
    rw [CentralizedNetwork.applications_setApplication_self]
    exact ⟨hidle, Or.inl .records⟩
  | records =>
    cases hstack
    simp only [CentralizedNetwork.exec, exec, execBase, BaseApplication.exec, SortedMap.next, hidle.1, List.head?_nil,
      Option.map_some, Option.some.injEq, Prod.mk.injEq] at he
    obtain ⟨rfl, rfl⟩ := he
    rw [CentralizedNetwork.applications_setApplication_self]
    exact ⟨hidle, Or.inr ⟨rfl, rfl⟩⟩

/-- What leads to where a node looks for overdue records is made by a call that does, or when the node settles. -/
theorem findsOverdue_of_makes {y : NetworkCall N} (h : NetworkMakes Γ ch w x y) (hx : x.isAside = true)
    (hc : findsOverdue c = true) (hy : y = .call i c ∨ y = .app i c) :
    (∃ c', findsOverdue c' = true ∧ (x = .call i c' ∨ x = .app i c')) ∨ ∃ a, x = .settle i a := by
  cases h with
  | @inside k c' z hz =>
    left
    rcases hy with hy | hy
    · cases hy
    · cases hy
      refine ⟨c', ?_, Or.inr rfl⟩
      rcases of_findsOverdue hc with ⟨t, rfl⟩ | ⟨t, rfl⟩ | rfl | ⟨after, rfl⟩ <;> cases hz <;> rfl
  | handOn =>
    rcases hy with hy | hy
    · cases hy
    · cases hy
      exact Or.inl ⟨c, hc, Or.inl rfl⟩
  | settle =>
    rcases hy with hy | hy <;> cases hy
  | catchUp =>
    rcases hy with hy | hy
    · cases hy
      exact Or.inr ⟨_, rfl⟩
    · cases hy
  | _ => cases hx

/-- Between two ticks no outside code runs while a node joins. -/
theorem Joining.not_userCode {f : NetworkCall N} (h : Joining w i (f :: calls)) : f.isUserCode = false := by
  generalize hstack : f :: calls = stack at h
  cases h <;> cases hstack <;> rfl

theorem joinsIdle_step (hs : Step (networkProgram Γ N) m l m') (hstack : m.stack = μ.stack) (hstack' : m'.stack = μ'.stack)
    (htrace : m'.trace = ran.map (fun x => (x, ch)) ++ m.trace) (hg : Proceeds Γ ch m.state μ ran m'.state μ')
    (hR : ResidentState m) (hlive : ∀ i, (m.state.applications i).dead = false) (h : JoinsIdle m.state μ) :
    JoinsIdle m'.state μ' := by
  obtain ⟨w, stack, tr⟩ := m
  obtain ⟨w', stack', tr'⟩ := m'
  intro new hnew i c hc hmem
  cases hg with
  | @aside x cs calls w' hx he =>
    cases hnew
    obtain rfl : stack = x :: calls := hstack
    have hcases : (∃ c', findsOverdue c' = true ∧ (.call i c' ∈ x :: calls ∨ .app i c' ∈ x :: calls)) ∨
        ∃ a, x = .settle i a := by
      have hmade : ∀ {y}, y ∈ cs → y = .call i c ∨ y = .app i c →
          (∃ c', findsOverdue c' = true ∧ (.call i c' ∈ x :: calls ∨ .app i c' ∈ x :: calls)) ∨ ∃ a, x = .settle i a := by
        intro y hy hyc
        refine (findsOverdue_of_makes (CentralizedNetwork.exec_makes he y hy) hx hc hyc).imp_left ?_
        rintro ⟨c', hc', rfl | rfl⟩
        · exact ⟨c', hc', Or.inl List.mem_cons_self⟩
        · exact ⟨c', hc', Or.inr List.mem_cons_self⟩
      rcases hmem with hmem | hmem
      · rcases List.mem_append.1 hmem with hmem | hmem
        · exact hmade hmem (Or.inl rfl)
        · exact Or.inl ⟨c, hc, Or.inl (List.mem_cons_of_mem _ hmem)⟩
      · rcases List.mem_append.1 hmem with hmem | hmem
        · exact hmade hmem (Or.inr rfl)
        · exact Or.inl ⟨c, hc, Or.inr (List.mem_cons_of_mem _ hmem)⟩
    rcases hcases with ⟨c', hc', hmem'⟩ | ⟨a, rfl⟩
    · obtain ⟨hidle, hjoin⟩ := h (x :: calls) rfl i c' hc' hmem'
      obtain ⟨hidle', hjoin' | ⟨rfl, rfl⟩⟩ := hjoin.exec hidle (hlive i) he
      · exact ⟨hidle', hjoin'⟩
      · simp only [Loop.under, List.nil_append, List.mem_cons, List.not_mem_nil, or_false] at hmem
        rcases hmem with (hmem | hmem) | hmem | hmem <;> cases hmem <;> cases hc
    · obtain ⟨hsettling, hzero, -⟩ := hR.addresses.settling i a List.mem_cons_self
      obtain ⟨-, rfl⟩ := List.cons.inj hsettling
      cases he
      refine ⟨?_, .called⟩
      show ((w.setApplication i _).applications i).callbacks.entries = [] ∧ ((w.setApplication i _).applications i).inqueue = []
      rw [CentralizedNetwork.applications_setApplication_self]
      exact hR.idle i hzero
  | @comes x calls hx ht =>
    cases hnew
    obtain rfl : stack = calls := hstack
    obtain rfl : stack' = x :: stack := hstack'
    obtain rfl : l = .enter x := hs.enter_of_stack htrace rfl
    have hold : .call i c ∈ stack ∨ .app i c ∈ stack := by
      rcases hmem with hmem | hmem
      · refine Or.inl ((List.mem_cons.1 hmem).resolve_left ?_)
        rintro rfl
        rcases hx with hx | hx <;> cases hx
      · refine Or.inr ((List.mem_cons.1 hmem).resolve_left ?_)
        rintro rfl
        rcases of_findsOverdue hc with ⟨t, rfl⟩ | ⟨t, rfl⟩ | rfl | ⟨after, rfl⟩ <;> rcases hx with hx | hx <;> cases hx
    cases hs with
    | event hevent => rcases hold with hold | hold <;> cases hold
    | @reentry _ f rest _ _ hf =>
      have hcode : f.isUserCode = false := (h _ rfl i c hc hold).2.not_userCode
      have hf : f.isUserCode = true := hf
      rw [hcode] at hf
      cases hf
  | @returns x calls hx =>
    cases hnew
    have hold : .call i c ∈ x :: new ∨ .app i c ∈ x :: new :=
      hmem.imp (fun h => List.mem_cons_of_mem _ h) (fun h => List.mem_cons_of_mem _ h)
    have hcode := (h _ rfl i c hc hold).2.not_userCode
    rw [hx] at hcode
    cases hcode
  | ends =>
    cases hnew
    rcases hmem with hmem | hmem <;> cases hmem
  | ticks | leaves => exact absurd hnew inTurn_ne_between
  | _ => cases hnew

end Dhtsim
