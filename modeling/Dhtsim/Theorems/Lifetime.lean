import Dhtsim.Lemmas.CallGraph
import Dhtsim.Model.Outside

/-!
# The lifetime of stored values

An entry is touched when its value arrives again, and erased by the first maintenance that finds it untouched for a period.
Maintenance runs once per period, so that an entry is never kept for two of them.
-/

namespace Dhtsim

open CallMachine KademliaNode

def Call.isTick : Call → Bool
  | .tick _ => true
  | _ => false

/-- Whether the node was ticked before. -/
def ticked (tr : NodeTrace) : Bool := tr.any (fun e => e.1.isTick)

/-- Ticks come at consecutive epochs, from any first one on, none so late that `Time` wraps within a period. What hands a message
to the node is a tick, so that none is handled before the first one. -/
def consecutive (m : NodeConfig) (l : NodeLabel) : Bool :=
  match l with
  | .enter (.tick t) => t.toNat + m.state.config.maintenancePeriod.toNat < 2 ^ 64 &&
      (!ticked m.trace || t.toNat = m.state.epoch.toNat + 1)
  | .enter (.base (.handleMessage _)) => ticked m.trace
  | _ => true

/-- The entries that `runTableMaintenance` leaves. -/
def KademliaNode.survivors (n : KademliaNode) : List (KademliaKey × TableEntry) :=
  n.table.entries.filter (fun e => decide (n.epoch.toNat < e.2.lastTouch.toNat + n.config.maintenancePeriod.toNat))

namespace LifetimeAux

variable {Γ : Ctx} {ch : Choice} {c : Call} {n : KademliaNode} {p : KademliaNode × List Call} {m m' : NodeConfig}
  {config : Config} {key : KademliaKey} {offset : Time} {due : Nat}

/-- The calls that lead from a tick to the maintenance. -/
def ticking : Call → Bool
  | .base (.tick _) => true
  | .tick _ => true
  | .maintenanceCheck => true
  | .runTableMaintenance => true
  | _ => false

/-- The calls that lead from a tick, or from a message, to a store. -/
def storing : Call → Bool
  | .base (.tick _) => true
  | .base .drain => true
  | .base (.handleMessage _) => true
  | .dispatch _ => true
  | .handleStore _ _ => true
  | _ => false

/-- Only a tick leads to the maintenance. -/
theorem makes_ticking {x : Call} (h : Makes Γ ch n c x) (hc : ticking c = false) : ticking x = false := by
  cases h with
  | tickBase | tickMaintenance | maintenance => cases hc
  | _ => rfl

/-- Only a tick or a message leads to a store. -/
theorem makes_storing {x : Call} (h : Makes Γ ch n c x) (hc : storing c = false) (htick : c.isTick = false) :
    storing x = false := by
  cases h with
  | tickBase => cases htick
  | tickDrain | drainMessage | drainNext | dispatch | storeRequested => cases hc
  | _ => rfl

/-- The entries of a table with no room for a wrap of `Time`: touched after they were added and not in the future, and with no
maintenance that should have erased them before the epoch `due`. -/
structure Lasting (due : Nat) (n : KademliaNode) : Prop where
  room : n.epoch.toNat + n.config.maintenancePeriod.toNat < 2 ^ 64
  ordered : ∀ k e, n.table.find? k = some e → e.added ≤ e.lastTouch ∧ e.lastTouch ≤ n.epoch
  lasting : ∀ k e, n.table.find? k = some e → ∀ τ, τ % n.config.maintenancePeriod.toNat = n.maintenanceOffset.toNat →
    e.lastTouch.toNat + n.config.maintenancePeriod.toNat ≤ τ → due ≤ τ

theorem Lasting.mono {due' : Nat} (h : Lasting due n) (hle : due' ≤ due) : Lasting due' n :=
  ⟨h.room, h.ordered, fun k e hf τ hτ hlast => hle.trans (h.lasting k e hf τ hτ hlast)⟩

/-- Whether an entry is erased, without machine arithmetic. -/
theorem expired_eq {e : TableEntry} (hroom : n.epoch.toNat + n.config.maintenancePeriod.toNat < 2 ^ 64)
    (he : e.lastTouch ≤ n.epoch) :
    n.expired e = decide (e.lastTouch.toNat + n.config.maintenancePeriod.toNat ≤ n.epoch.toNat) := by
  have hle : e.lastTouch.toNat ≤ n.epoch.toNat := UInt64.le_iff_toNat_le.1 he
  have hsum : (n.config.maintenancePeriod + e.lastTouch).toNat = e.lastTouch.toNat + n.config.maintenancePeriod.toNat := by
    rw [UInt64.toNat_add, Nat.add_comm, Nat.mod_eq_of_lt (by omega)]
  rw [expired, decide_eq_decide, UInt64.le_iff_toNat_le, hsum]

/-- Every call but the tick of the base and the maintenance keeps the entries lasting. -/
theorem exec_lasting (he : exec Γ ch c n = some p) (h : Lasting due n)
    (hdue : due ≤ n.epoch.toNat + n.config.maintenancePeriod.toNat) (hc : ∀ t, c ≠ .base (.tick t))
    (hm : c ≠ .runTableMaintenance) : Lasting due p.1 := by
  have hid := exec_identity he
  simp only [identity, Prod.mk.injEq] at hid
  obtain ⟨-, hconfig, hoffset⟩ := hid
  have hepoch : p.1.epoch = n.epoch := (exec_epoch he).resolve_left (fun ⟨t, ht, _⟩ => hc t ht)
  suffices hentries : ∀ k e, p.1.table.find? k = some e → (e.added ≤ e.lastTouch ∧ e.lastTouch ≤ n.epoch) ∧
      ∀ τ, τ % n.config.maintenancePeriod.toNat = n.maintenanceOffset.toNat →
        e.lastTouch.toNat + n.config.maintenancePeriod.toNat ≤ τ → due ≤ τ by
    refine ⟨by rw [hepoch, hconfig]; exact h.room, fun k e hf => ?_, fun k e hf => ?_⟩
    · rw [hepoch]
      exact (hentries k e hf).1
    · rw [hconfig, hoffset]
      exact (hentries k e hf).2
  intro k e hf
  rcases exec_table he with ht | ⟨msg, sm, rfl, ht⟩ | ⟨rfl, -⟩
  · rw [ht] at hf
    exact ⟨h.ordered k e hf, h.lasting k e hf⟩
  · rw [ht, find?_storeValue] at hf
    split at hf
    · cases hold : n.table.find? (Γ.sha1 sm.value) with
      | none =>
        rw [hold] at hf
        cases hf
        exact ⟨⟨UInt64.le_refl _, UInt64.le_refl _⟩, fun τ _ hτ => hdue.trans hτ⟩
      | some old =>
        rw [hold] at hf
        cases hf
        obtain ⟨hadded, hle⟩ := h.ordered _ _ hold
        exact ⟨⟨UInt64.le_trans hadded hle, UInt64.le_refl _⟩, fun τ _ hτ => hdue.trans hτ⟩
    · exact ⟨h.ordered k e hf, h.lasting k e hf⟩
  · exact absurd rfl hm

/-- What does not lead to the maintenance keeps the entries lasting, until the one after the next epoch. -/
theorem exec_quiet (he : exec Γ ch c n = some p) (hp : 0 < n.config.maintenancePeriod) (hc : ticking c = false)
    (h : Lasting due n) (hdue : due ≤ n.epoch.toNat + 1) :
    p.1.epoch = n.epoch ∧ Lasting due p.1 ∧ ∀ x ∈ p.2, ticking x = false := by
  have hpos : 0 < n.config.maintenancePeriod.toNat := UInt64.lt_iff_toNat_lt.1 hp
  have hbase : ∀ t, c ≠ .base (.tick t) := by
    rintro t rfl
    cases hc
  refine ⟨(exec_epoch he).resolve_left (fun ⟨t, ht, _⟩ => hbase t ht), ?_, fun x hx => makes_ticking (exec_makes he x hx) hc⟩
  refine exec_lasting he h (by omega) hbase ?_
  rintro rfl
  cases hc

/-- An entry that a call removes was last touched a period ago or earlier. -/
theorem exec_removed {k : KademliaKey} {e : TableEntry} (he : exec Γ ch c n = some p) (h : Lasting due n)
    (hf : n.table.find? k = some e) (hgone : p.1.table.find? k = none) :
    p.1.epoch = n.epoch ∧ e.lastTouch.toNat + n.config.maintenancePeriod.toNat ≤ n.epoch.toNat := by
  rcases exec_table he with ht | ⟨msg, sm, rfl, ht⟩ | ⟨rfl, ht⟩
  · rw [ht, hf] at hgone
    cases hgone
  · rw [ht, find?_storeValue] at hgone
    split at hgone
    · cases hgone
    · rw [hf] at hgone
      cases hgone
  · have hexp : n.expired e = true := by
      rw [ht, SortedMap.find?_filter, hf, Option.filter_some, ite_eq_right_iff] at hgone
      cases hexp : n.expired e with
      | true => rfl
      | false => cases hgone (by rw [hexp]; rfl)
    rw [expired_eq h.room (h.ordered k e hf).2, decide_eq_true_eq] at hexp
    exact ⟨(exec_epoch he).resolve_left (fun ⟨t, ht, _⟩ => by cases ht), hexp⟩

/-- A maintenance at its epoch leaves no entry that is due. -/
theorem runTableMaintenance_lasting (h : Lasting due n) : Lasting (n.epoch.toNat + 1) (n.runTableMaintenance Γ).1 := by
  refine ⟨h.room, fun k e hf => ?_, fun k e hf τ _ hlast => ?_⟩
  all_goals
    rw [runTableMaintenance, SortedMap.find?_filter, Option.filter_eq_some_iff] at hf
    obtain ⟨hf, hexp⟩ := hf
  · exact h.ordered k e hf
  · rw [expired_eq h.room (h.ordered k e hf).2, Bool.not_eq_true', decide_eq_false_iff_not] at hexp
    have hlast : e.lastTouch.toNat + n.config.maintenancePeriod.toNat ≤ τ := hlast
    omega

/-- Nothing is due at an epoch without a maintenance. -/
theorem Lasting.skip (h : Lasting n.epoch.toNat n) (hepoch : n.epoch % n.config.maintenancePeriod ≠ n.maintenanceOffset) :
    Lasting (n.epoch.toNat + 1) n := by
  refine ⟨h.room, h.ordered, fun k e hf τ hτ hlast => ?_⟩
  have hle := h.lasting k e hf τ hτ hlast
  have hne : n.epoch.toNat ≠ τ := by
    rintro rfl
    exact hepoch (UInt64.toNat_inj.1 ((UInt64.toNat_mod _ _).trans hτ))
  omega

/-- The tick of the base brings the epoch at which the maintenance will look. -/
theorem tick_lasting {t : Time} (he : exec Γ ch (.base (.tick t)) n = some p) (h : Lasting (n.epoch.toNat + 1) n)
    (hroom : t.toNat + n.config.maintenancePeriod.toNat < 2 ^ 64)
    (ht : (∀ k, n.table.find? k = none) ∨ t.toNat = n.epoch.toNat + 1) :
    Lasting p.1.epoch.toNat p.1 ∧ ∀ x ∈ p.2, ticking x = false := by
  simp only [exec, execBase, BaseApplication.exec, Option.some.injEq] at he
  split at he
  · subst he
    exact ⟨h.mono (Nat.le_succ _), by simp⟩
  · subst he
    refine ⟨⟨hroom, fun k e hf => ?_, fun k e hf τ hτ hlast => ?_⟩, fun x hx => ?_⟩
    · have hf : n.table.find? k = some e := hf
      rcases ht with hnone | ht
      · rw [hnone k] at hf
        cases hf
      · obtain ⟨hadded, hle⟩ := h.ordered k e hf
        refine ⟨hadded, UInt64.le_trans hle (UInt64.le_iff_toNat_le.2 ?_)⟩
        show n.epoch.toNat ≤ t.toNat
        omega
    · have hf : n.table.find? k = some e := hf
      rcases ht with hnone | ht
      · rw [hnone k] at hf
        cases hf
      · exact ht.le.trans (h.lasting k e hf τ hτ hlast)
    · have hx : x ∈ [Call.base .drain, .base (.overdue none)] := hx
      rcases List.mem_pair.1 hx with rfl | rfl <;> rfl

/-- Where a node is between one maintenance and the next. -/
inductive Stage (n : KademliaNode) : List Call → Prop where
  | quiet {stack : List Call} (hquiet : ∀ c ∈ stack, ticking c = false) (h : Lasting (n.epoch.toNat + 1) n) : Stage n stack
  | entered {t : Time} (hroom : t.toNat + n.config.maintenancePeriod.toNat < 2 ^ 64)
      (ht : (∀ k, n.table.find? k = none) ∨ t.toNat = n.epoch.toNat + 1) (h : Lasting (n.epoch.toNat + 1) n) :
      Stage n [.tick t]
  | begun {t : Time} (hroom : t.toNat + n.config.maintenancePeriod.toNat < 2 ^ 64)
      (ht : (∀ k, n.table.find? k = none) ∨ t.toNat = n.epoch.toNat + 1) (h : Lasting (n.epoch.toNat + 1) n) :
      Stage n [.base (.tick t), .maintenanceCheck, .refreshCheck]
  | waiting {above : List Call} (hquiet : ∀ c ∈ above, ticking c = false) (h : Lasting n.epoch.toNat n) :
      Stage n (above ++ [.maintenanceCheck, .refreshCheck])
  | due (h : Lasting n.epoch.toNat n) : Stage n [.runTableMaintenance, .refreshCheck]

/-- Before the first tick nothing is stored. -/
theorem untouched_of_run (h : Run (nodeProgram Γ) (fun m l => consecutive m l = true) (startNode config key offset) m)
    (ht : ticked m.trace = false) : (∀ k, m.state.table.find? k = none) ∧ ∀ c ∈ m.stack, storing c = false := by
  refine h.invariant (I := fun m => ticked m.trace = false →
    (∀ k, m.state.table.find? k = none) ∧ ∀ c ∈ m.stack, storing c = false) (fun _ => ⟨fun k => rfl, by simp [startNode]⟩) ?_ ht
  intro m l m' _ hI hok hs ht
  cases hs with
  | @run ch c rest n tr n' cs hw he =>
    rw [ticked, List.any_cons, Bool.or_eq_false_iff] at ht
    obtain ⟨hnone, hstoring⟩ := hI ht.2
    have hc := hstoring c List.mem_cons_self
    refine ⟨fun k => ?_, fun x hx => ?_⟩
    · rcases exec_table he with hkeep | ⟨msg, sm, rfl, -⟩ | ⟨-, hfilter⟩
      · have hkeep : n'.table = n.table := hkeep
        rw [hkeep]
        exact hnone k
      · cases hc
      · have hfilter : n'.table = n.table.filter (fun e => !n.expired e.2) := hfilter
        have hnone : n.table.find? k = none := hnone k
        rw [hfilter, SortedMap.find?_filter, hnone, Option.filter_none]
    · rcases List.mem_append.1 hx with hx | hx
      · exact makes_storing (exec_makes he x hx) hc ht.1
      · exact hstoring x (List.mem_cons_of_mem _ hx)
  | @event c n tr hc =>
    refine ⟨(hI ht).1, fun x hx => ?_⟩
    obtain rfl := List.mem_singleton.1 hx
    cases x with
    | base b =>
      cases b with
      | handleMessage msg =>
        have hok : ticked tr = true := hok
        have ht : ticked tr = false := ht
        rw [ht] at hok
        cases hok
      | tick | drain => cases hc
      | _ => rfl
    | dispatch | handleStore => cases hc
    | _ => rfl
  | @reentry c f rest n tr hf hc =>
    obtain ⟨hnone, hstoring⟩ := hI ht
    refine ⟨hnone, fun x hx => ?_⟩
    rcases List.mem_cons.1 hx with rfl | hx
    · cases x with
      | base | tick | dispatch | handleStore => cases hc
      | _ => rfl
    · exact hstoring x hx
  | leave hf =>
    obtain ⟨hnone, hstoring⟩ := hI ht
    exact ⟨hnone, fun x hx => hstoring x (List.mem_cons_of_mem _ hx)⟩

theorem ticking_of_isPublic (hc : c.isPublic = true) : ticking c = false := by
  cases c with
  | base | tick | maintenanceCheck | runTableMaintenance => cases hc
  | _ => rfl

/-- The stage after a call ran. -/
theorem Stage.exec {rest : List Call} (hp : 0 < n.config.maintenancePeriod) (h : Stage n (c :: rest))
    (he : exec Γ ch c n = some p) : Stage p.1 (p.2 ++ rest) := by
  generalize hstack : c :: rest = stack at h
  cases h with
  | quiet hquiet h =>
    subst hstack
    obtain ⟨hepoch, h, hmade⟩ := exec_quiet he hp (hquiet c List.mem_cons_self) h (Nat.le_refl _)
    refine .quiet (fun x hx => ?_) (by rwa [hepoch])
    rcases List.mem_append.1 hx with hx | hx
    · exact hmade x hx
    · exact hquiet x (List.mem_cons_of_mem _ hx)
  | entered hroom ht h =>
    obtain ⟨rfl, rfl⟩ := List.cons.inj hstack
    cases he
    exact .begun hroom ht h
  | begun hroom ht h =>
    obtain ⟨rfl, rfl⟩ := List.cons.inj hstack
    obtain ⟨h, hquiet⟩ := tick_lasting he h hroom ht
    exact .waiting hquiet h
  | @waiting above hquiet h =>
    cases above with
    | nil =>
      obtain ⟨rfl, rfl⟩ := List.cons.inj hstack
      simp only [KademliaNode.exec, Option.ite_none_left_eq_some, Option.some.injEq] at he
      obtain ⟨-, rfl⟩ := he
      split_ifs with hepoch
      · exact .due h
      · refine .quiet (fun x hx => ?_) (h.skip hepoch)
        obtain rfl := List.mem_singleton.1 hx
        rfl
    | cons a above =>
      obtain ⟨rfl, rfl⟩ := List.cons.inj hstack
      obtain ⟨hepoch, h, hmade⟩ := exec_quiet he hp (hquiet c List.mem_cons_self) h (Nat.le_succ _)
      have hstage : Stage p.1 ((p.2 ++ above) ++ [.maintenanceCheck, .refreshCheck]) := by
        refine .waiting (fun x hx => ?_) (by rwa [hepoch])
        rcases List.mem_append.1 hx with hx | hx
        · exact hmade x hx
        · exact hquiet x (List.mem_cons_of_mem _ hx)
      rwa [List.append_assoc] at hstage
  | due h =>
    obtain ⟨rfl, rfl⟩ := List.cons.inj hstack
    cases he
    refine .quiet (fun x hx => ?_) (runTableMaintenance_lasting h)
    rcases List.mem_append.1 hx with hx | hx
    · have hmakes : Makes Γ ch n .runTableMaintenance x := runTableMaintenance_makes x hx
      cases hmakes with
      | republish => rfl
    · obtain rfl := List.mem_singleton.1 hx
      rfl

/-- Outside code calls nothing that leads to the maintenance, and may return. -/
theorem Stage.userCode {f : Call} {rest : List Call} (h : Stage n (f :: rest)) (hf : f.isUserCode = true) :
    (∀ c, ticking c = false → Stage n (c :: f :: rest)) ∧ Stage n rest := by
  generalize hstack : f :: rest = stack at h
  cases h with
  | quiet hquiet h =>
    subst hstack
    refine ⟨fun c hc => .quiet (fun x hx => ?_) h, .quiet (fun x hx => hquiet x (List.mem_cons_of_mem _ hx)) h⟩
    rcases List.mem_cons.1 hx with rfl | hx
    · exact hc
    · exact hquiet x hx
  | entered | begun | due =>
    obtain ⟨rfl, -⟩ := List.cons.inj hstack
    cases hf
  | @waiting above hquiet h =>
    cases above with
    | nil =>
      obtain ⟨rfl, -⟩ := List.cons.inj hstack
      cases hf
    | cons a above =>
      obtain ⟨rfl, rfl⟩ := List.cons.inj hstack
      refine ⟨fun c hc => ?_, .waiting (fun x hx => hquiet x (List.mem_cons_of_mem _ hx)) h⟩
      have hstage : Stage n ((c :: f :: above) ++ [.maintenanceCheck, .refreshCheck]) := by
        refine .waiting (fun x hx => ?_) h
        rcases List.mem_cons.1 hx with rfl | hx
        · exact hc
        · exact hquiet x hx
      exact hstage

theorem Stage.lasting {stack : List Call} (h : Stage n stack) : Lasting n.epoch.toNat n := by
  cases h with
  | quiet _ h => exact h.mono (Nat.le_succ _)
  | entered _ _ h => exact h.mono (Nat.le_succ _)
  | begun _ _ h => exact h.mono (Nat.le_succ _)
  | waiting _ h => exact h
  | due h => exact h

theorem Stage.lasting_of_nil {stack : List Call} (h : Stage n stack) (hnil : stack = []) :
    Lasting (n.epoch.toNat + 1) n := by
  cases h with
  | quiet _ h => exact h
  | entered | begun | due => cases hnil
  | waiting => exact absurd hnil (by simp)

theorem config_of_run {ok : NodeConfig → NodeLabel → Prop} (h : Run (nodeProgram Γ) ok (startNode config key offset) m) :
    m.state.config = config ∧ m.state.maintenanceOffset = offset :=
  have hid := identity_of_run h
  ⟨congrArg (·.2.1) hid, congrArg (·.2.2) hid⟩

/-- In every run with consecutive ticks a node is at one of the stages. -/
theorem stage_of_run (hp : 0 < config.maintenancePeriod)
    (h : Run (nodeProgram Γ) (fun m l => consecutive m l = true) (startNode config key offset) m) : Stage m.state m.stack := by
  refine h.invariant (I := fun m => Stage m.state m.stack) (.quiet (by simp [startNode]) ⟨?_, ?_, ?_⟩) ?_
  · show 0 + config.maintenancePeriod.toNat < 2 ^ 64
    have := config.maintenancePeriod.toNat_lt
    omega
  · intro k e hf
    cases hf
  · intro k e hf
    cases hf
  · intro m l m' hr hI hok hs
    cases hs with
    | run hw he => exact hI.exec ((config_of_run hr).1 ▸ hp) he
    | @event c n tr hc =>
      have hlasting : Lasting (n.epoch.toNat + 1) n := hI.lasting_of_nil rfl
      by_cases htick : c.isTick = true
      · unfold Call.isTick at htick
        split at htick
        · simp only [consecutive, Bool.and_eq_true, Bool.or_eq_true, Bool.not_eq_true', decide_eq_true_eq] at hok
          exact .entered hok.1 (hok.2.imp_left (fun ht => (untouched_of_run hr ht).1)) hlasting
        · cases htick
      · refine .quiet (fun x hx => ?_) hlasting
        obtain rfl := List.mem_singleton.1 hx
        cases x with
        | base b =>
          cases b with
          | tick => cases hc
          | _ => rfl
        | tick => exact absurd rfl htick
        | maintenanceCheck | runTableMaintenance => cases hc
        | _ => rfl
    | @reentry c f rest n tr hf hc => exact (hI.userCode hf).1 c (ticking_of_isPublic hc)
    | leave hf => exact (hI.userCode hf).2

/-- Within a period there is an epoch of maintenance. -/
theorem exists_mod_eq (a : Nat) {o q : Nat} (ho : o < q) : ∃ τ, a ≤ τ ∧ τ < a + q ∧ τ % q = o := by
  have ha := Nat.div_add_mod a q
  have hlt := Nat.mod_lt a (Nat.zero_lt_of_lt ho)
  by_cases hle : a % q ≤ o
  · refine ⟨q * (a / q) + o, by omega, by omega, ?_⟩
    rw [Nat.mul_add_mod, Nat.mod_eq_of_lt ho]
  · refine ⟨q * (a / q + 1) + o, ?_, ?_, ?_⟩
    · rw [Nat.mul_add]
      omega
    · rw [Nat.mul_add]
      omega
    · rw [Nat.mul_add_mod, Nat.mod_eq_of_lt ho]

/-! ## What the maintenance sends -/

theorem execBase_send_empty (Γ : Ctx) (ch : Choice) (n : KademliaNode) (msg : Message UInt32) (r : UInt32) (t : UInt64) :
    ∃ app, n.execBase Γ ch (.send msg .empty r t) = (n.setBase app, []) ∧ app.address = n.address := by
  refine ⟨(n.toBaseApplication.send ch.tag msg .empty r t).1, ?_, by rw [BaseApplication.send_eq]⟩
  cases hd : n.dead with
  | true =>
    have hd : n.toBaseApplication.dead = true := hd
    simp only [execBase, BaseApplication.exec, BaseApplication.send_of_dead hd]
    rfl
  | false =>
    have hd : n.toBaseApplication.dead = false := hd
    simp only [execBase, BaseApplication.exec, BaseApplication.send_of_live hd]
    rfl

/-- Values are sent one after the other, whatever is drawn. -/
theorem follow_storeAt (rest : List Call) (l : List (UInt32 × List UInt8)) (n : KademliaNode) (tr : NodeTrace)
    (chs : List Choice) (hchs : chs.length = 2 * l.length) : ∃ n' new,
      follow (nodeProgram Γ) (fun _ _ => true) ⟨n, l.map (fun x => .storeAt x.1 x.2) ++ rest, tr⟩ (chs.map .run) =
        some ⟨n', rest, new ++ tr⟩ ∧
      new.reverse.flatMap (fun e => e.1.handsOver) = l.map (fun x => n.storeRequest Γ x.1 x.2) ∧ n'.table = n.table := by
  induction l generalizing n tr chs with
  | nil =>
    obtain rfl := List.eq_nil_of_length_eq_zero hchs
    exact ⟨n, [], rfl, rfl, rfl⟩
  | cons x l ih =>
    match chs, hchs with
    | ch₁ :: ch₂ :: chs, hchs =>
      have hlen : chs.length = 2 * l.length := by
        simp only [List.length_cons] at hchs
        omega
      obtain ⟨app, hsend, haddress⟩ := execBase_send_empty Γ ch₂ n (n.storeRequest Γ x.1 x.2) 16 0
      obtain ⟨n', new, hfollow, hsent, htable⟩ := ih (n.setBase app)
        ((.base (.send (n.storeRequest Γ x.1 x.2) .empty 16 0), ch₂) :: (.storeAt x.1 x.2, ch₁) :: tr) chs hlen
      refine ⟨n', new ++ [(.base (.send (n.storeRequest Γ x.1 x.2) .empty 16 0), ch₂), (.storeAt x.1 x.2, ch₁)], ?_, ?_, htable⟩
      · have hstore : n.storeAt Γ x.1 x.2 = [.base (.send (n.storeRequest Γ x.1 x.2) .empty 16 0)] := rfl
        simp only [List.map_cons, follow, step, nodeProgram, Call.isUserCode, exec, hstore, hsend, List.cons_append,
          List.nil_append, Option.map_some, Option.bind_some, if_true, Bool.false_eq_true, if_false]
        rw [List.append_assoc]
        exact hfollow
      · have hrequest : ∀ y : UInt32 × List UInt8, (n.setBase app).storeRequest Γ y.1 y.2 = n.storeRequest Γ y.1 y.2 := by
          intro y
          simp only [storeRequest]
          rw [show (n.setBase app).address = n.address from haddress]
          rfl
        simp only [hrequest] at hsent
        rw [List.reverse_append, List.flatMap_append, hsent]
        rfl

/-- What the maintenance leaves, and what it makes of it. -/
theorem runTableMaintenance_eq (h : Lasting due n) : (n.runTableMaintenance Γ).1.table.entries = n.survivors ∧
    (n.runTableMaintenance Γ).2 = (n.survivors.flatMap (fun e =>
      (n.getNearest Γ n.config.k e.1 n.key).map (fun c => (c.address, e.2.value)))).map (fun x => .storeAt x.1 x.2) := by
  have hsurvivors : (n.table.filter (fun e => !n.expired e.2)).entries = n.survivors := by
    refine List.filter_congr (fun e he => ?_)
    have hf := SortedMap.find?_eq_some_iff.2 he
    rw [expired_eq h.room (h.ordered _ _ hf).2, ← decide_not, decide_eq_decide, Nat.not_le]
  refine ⟨hsurvivors, ?_⟩
  rw [runTableMaintenance, hsurvivors, List.map_flatMap]
  refine List.flatMap_congr (fun e he => ?_)
  have hmem : e ∈ n.table.entries := List.mem_of_mem_filter he
  rw [if_pos (h.ordered _ _ (SortedMap.find?_eq_some_iff.2 hmem)).1, List.map_map]
  rfl

end LifetimeAux

open LifetimeAux

/-- The lifetime of the values of a node, whose maintenance has any period and any offset within it, when it is ticked at consecutive
epochs.
1. An entry was touched no earlier than it was added, and no later than now.
2. An entry that is gone after a step was last touched a period ago or earlier.
3. When a tick has returned, every entry was last touched less than two periods ago.
4. A maintenance, whatever is drawn, hands to `send` one `STORE` for each entry that it leaves and each of the nearest contacts. -/
theorem lifetime {Γ : Ctx} {config : Config} {key : KademliaKey} {offset : Time} {m : NodeConfig}
    (hp : 0 < config.maintenancePeriod) (ho : offset < config.maintenancePeriod)
    (h : Run (nodeProgram Γ) (fun m l => consecutive m l = true) (startNode config key offset) m) :
    (∀ k e, m.state.table.find? k = some e → e.added ≤ e.lastTouch ∧ e.lastTouch ≤ m.state.epoch) ∧
    (∀ l m', step (nodeProgram Γ) m l = some m' → ∀ k e, m.state.table.find? k = some e → m'.state.table.find? k = none →
      m'.state.epoch = m.state.epoch ∧ e.lastTouch.toNat + config.maintenancePeriod.toNat ≤ m.state.epoch.toNat) ∧
    (m.stack = [] → ∀ k e, m.state.table.find? k = some e →
      m.state.epoch.toNat < e.lastTouch.toNat + 2 * config.maintenancePeriod.toNat) ∧
    ∀ rest, m.stack = .runTableMaintenance :: rest → ∃ calls : Nat, ∀ chs : List Choice, chs.length = calls →
      ∃ n new, follow (nodeProgram Γ) (fun _ _ => true) m (chs.map .run) = some ⟨n, rest, new ++ m.trace⟩ ∧
        n.table.entries = m.state.survivors ∧
        new.reverse.flatMap (fun e => e.1.handsOver) = m.state.survivors.flatMap (fun e =>
          (m.state.getNearest Γ config.k e.1 key).map (fun c => m.state.storeRequest Γ c.address e.2.value)) := by
  obtain ⟨hconfig, hoffset⟩ := config_of_run h
  have hstage := stage_of_run hp h
  have hlasting := hstage.lasting
  refine ⟨hlasting.ordered, ?_, ?_, ?_⟩
  · intro l m' hs k e hf hgone
    cases step_of_eq_some hs with
    | run hw he =>
      obtain ⟨hepoch, hle⟩ := exec_removed he hlasting hf hgone
      exact ⟨hepoch, hconfig ▸ hle⟩
    | event | reentry | leave => exact absurd (hf.symm.trans hgone) (Option.some_ne_none e)
  · intro hstack k e hf
    obtain ⟨τ, hle, hlt, hmod⟩ := exists_mod_eq (e.lastTouch.toNat + config.maintenancePeriod.toNat)
      (UInt64.lt_iff_toNat_lt.1 ho)
    have hepoch := (hstage.lasting_of_nil hstack).lasting k e hf τ (by rwa [hconfig, hoffset]) (by rwa [hconfig])
    omega
  · intro rest hstack
    obtain ⟨n, stack, tr⟩ := m
    obtain rfl := hstack
    have hconfig : n.config = config := hconfig
    have hkey : n.key = key := congrArg (·.1) (identity_of_run h)
    obtain ⟨htable, hcalls⟩ := runTableMaintenance_eq (Γ := Γ) hlasting
    refine ⟨2 * (n.survivors.flatMap (fun e =>
      (n.getNearest Γ n.config.k e.1 n.key).map (fun c => (c.address, e.2.value)))).length + 1, fun chs hchs => ?_⟩
    match chs, hchs with
    | ch :: chs, hchs =>
      obtain ⟨n', new, hfollow, hsent, htable'⟩ := follow_storeAt rest _ (n.runTableMaintenance Γ).1
        ((.runTableMaintenance, ch) :: tr) chs (Nat.succ.inj hchs)
      refine ⟨n', new ++ [(.runTableMaintenance, ch)], ?_, (congrArg _ htable').trans htable, ?_⟩
      · simp only [List.map_cons, follow, step, nodeProgram, Call.isUserCode, exec, hcalls, Option.map_some,
          Option.bind_some, if_true, Bool.false_eq_true, if_false]
        rw [List.append_assoc]
        exact hfollow
      · rw [List.reverse_append, List.flatMap_append, hsent, List.map_flatMap]
        simp only [List.map_map]
        rw [hconfig, hkey]
        rfl

/-- A value is stored with a node that has one contact, and the node comes to its next maintenance. -/
def storedOnce : List NodeLabel :=
  [.enter (.tick 5)] ++ runs 1 6 ++
    [.enter (.base (.recv ⟨3, 9, 0, 7, Ctx.reference.store.write ⟨true, .starting 128, [42]⟩⟩))] ++ runs 7 1 ++
    [.enter (.tick 6)] ++ runs 8 13 ++ [.enter (.tick 7)] ++ runs 21 5

/-- The value is sent to the contact. -/
theorem lifetime_sample : ∃ (m : NodeConfig) (calls : Nat), m.state.survivors.length = 1 ∧
    (m.state.getNearest .reference 20 (Ctx.reference.sha1 [42]) .zero).length = 1 ∧
    ∀ chs : List Choice, chs.length = calls → ∃ n new,
      follow (nodeProgram .reference) (fun _ _ => true) m (chs.map .run) = some ⟨n, [.refreshCheck], new ++ m.trace⟩ ∧
        new.reverse.flatMap (fun e => e.1.handsOver) = m.state.survivors.flatMap (fun e =>
          (m.state.getNearest .reference 20 e.1 .zero).map (fun c => m.state.storeRequest .reference c.address e.2.value)) := by
  obtain ⟨m, hr, hm⟩ := exists_run_of_follow (nodeProgram .reference) consecutive (startNode ⟨20, 3, 1000⟩ .zero 1) storedOnce
    (fun m => decide (m.stack = [.runTableMaintenance, .refreshCheck]) && decide (m.state.survivors.length = 1) &&
      decide ((m.state.getNearest .reference 20 (Ctx.reference.sha1 [42]) .zero).length = 1)) (by decide +kernel)
  simp only [Bool.and_eq_true, decide_eq_true_eq] at hm
  obtain ⟨⟨hstack, hsurvivors⟩, hnearest⟩ := hm
  obtain ⟨calls, hcalls⟩ := (lifetime (by decide) (by decide) hr).2.2.2 _ hstack
  refine ⟨m, calls, hsurvivors, hnearest, fun chs hchs => ?_⟩
  obtain ⟨n, new, hfollow, -, hsent⟩ := hcalls chs hchs
  exact ⟨n, new, hfollow, hsent⟩

end Dhtsim
