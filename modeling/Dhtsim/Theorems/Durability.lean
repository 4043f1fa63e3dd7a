import Dhtsim.Lemmas.Deliveries
import Dhtsim.Theorems.Integrity

/-!
# Values outlive the nodes' entries

Every node erases an entry that was not touched for a period, and sends the entries it keeps to other nodes once in a period.
Without churn a key is never lost: there is always a holder whose maintenance is still to come, or a message that stores the
key on its way (`Custody`), and while a message is on its way its sender still holds the key, or its receiver is about to
handle it.
-/

namespace Dhtsim

open CallMachine KademliaNode

variable {N : Nat}

/-- `Time` does not wrap in the call: not where the epoch is counted, and not where stale entries are looked for. -/
def NetworkCall.inTime (w : CentralizedNetwork N) : NetworkCall N → Bool
  | .endTick => decide (w.epoch.toNat + 1 < 2 ^ 64)
  | .app i .runTableMaintenance => (w.applications i).table.entries.all (fun e =>
    decide ((w.applications i).config.maintenancePeriod.toNat + e.2.lastTouch.toNat < 2 ^ 64))
  | _ => true

/-- A holder of the key that maintains its table has contacts to store it at, and other inhabitants live at their addresses. -/
def NetworkCall.findsOthers (Γ : Ctx) (k : KademliaKey) (w : CentralizedNetwork N) : NetworkCall N → Bool
  | .app i .runTableMaintenance =>
    let n := w.applications i
    let nearest := n.getNearest Γ n.config.k k n.key
    !n.table.contains k ||
      (!nearest.isEmpty && nearest.all (fun e => (w.inhabitants.find? e.address).any (fun j => decide (j ≠ i))))
  | _ => true

/-- The steps of a network without churn, in which no limit is hit and `Time` does not wrap. -/
def withoutChurn (Γ : Ctx) (k : KademliaKey) (m : NetworkConfig N) (l : NetworkLabel N) : Bool :=
  match l, m.stack with
  | .run _, x :: _ => x.unhindered m.state && x.inTime m.state && x.findsOthers Γ k m.state
  | _, _ => true

/-- Some node's table contains the key. -/
def CentralizedNetwork.holds (w : CentralizedNetwork N) (k : KademliaKey) : Prop :=
  ∃ i, (w.applications i).table.contains k = true

namespace DurabilityAux

variable {Γ : Ctx} {ch : NetworkChoice} {w w' : CentralizedNetwork N} {μ μ' : Moment N} {ran : List (NetworkCall N)}
  {x : NetworkCall N} {i j : Fin N} {k : KademliaKey} {c : Call} {e : TableEntry} {msg : Message UInt32}

/-- The call that a step runs, if it runs one, meets the conditions on a step. -/
def WithoutChurn (Γ : Ctx) (k : KademliaKey) (w : CentralizedNetwork N) (ran : List (NetworkCall N)) : Prop :=
  ∀ x ∈ ran, x.unhindered w = true ∧ x.inTime w = true ∧ x.findsOthers Γ k w = true

theorem WithoutChurn.unhindered (h : WithoutChurn Γ k w ran) : Unhindered w ran := fun x hx => (h x hx).1

/-! ## The clocks of the nodes -/

/-- All nodes are alive, none is ahead of the network, and an entry was added before it was last touched, which is past. -/
structure Clocks (w : CentralizedNetwork N) : Prop where
  live : ∀ i, (w.applications i).dead = false
  past : ∀ i, (w.applications i).epoch ≤ w.epoch
  ordered : ∀ i k e, (w.applications i).table.find? k = some e →
    e.added ≤ e.lastTouch ∧ e.lastTouch ≤ (w.applications i).epoch

/-- A call of a node keeps the times of its entries in order. -/
theorem ordered_exec {ch : Choice} {n : KademliaNode} {p : KademliaNode × List Call} (he : exec Γ ch c n = some p)
    (hepoch : n.epoch ≤ p.1.epoch)
    (h : ∀ k e, n.table.find? k = some e → e.added ≤ e.lastTouch ∧ e.lastTouch ≤ n.epoch) :
    ∀ k e, p.1.table.find? k = some e → e.added ≤ e.lastTouch ∧ e.lastTouch ≤ p.1.epoch := by
  intro k e hf
  suffices hle : e.added ≤ e.lastTouch ∧ e.lastTouch ≤ n.epoch from ⟨hle.1, UInt64.le_trans hle.2 hepoch⟩
  rcases exec_table he with ht | ⟨m, sm, rfl, ht⟩ | ⟨rfl, ht⟩
  · exact h k e (ht ▸ hf)
  · rw [ht, find?_storeValue] at hf
    split at hf
    · cases hold : n.table.find? (Γ.sha1 sm.value) with
      | none =>
        rw [hold] at hf
        cases hf
        exact ⟨UInt64.le_refl _, UInt64.le_refl _⟩
      | some old =>
        rw [hold] at hf
        cases hf
        obtain ⟨hadded, htouch⟩ := h _ _ hold
        exact ⟨UInt64.le_trans hadded htouch, UInt64.le_refl _⟩
    · exact h k e hf
  · rw [ht, SortedMap.find?_filter, Option.filter_eq_some_iff] at hf
    exact h k e hf.1

theorem clocks_proceeds (h : Clocks w) (hg : Proceeds Γ ch w μ ran w' μ') (htick : NodeTick w μ.calls)
    (hok : WithoutChurn Γ k w ran) : Clocks w' := by
  have hnow : w.epoch ≤ w'.epoch := by
    by_cases hμ : μ = .finish
    · subst hμ
      obtain ⟨rfl, rfl, -⟩ := hg.finish
      have hlt : w.epoch.toNat + 1 < 2 ^ 64 := of_decide_eq_true (hok _ List.mem_cons_self).2.1
      rw [UInt64.le_iff_toNat_le, toNat_epoch_succ hlt]
      omega
    · rw [hg.epoch hμ]
  suffices hnode : ∀ i, (w'.applications i).epoch ≤ w.epoch ∧
      ∀ k e, (w'.applications i).table.find? k = some e → e.added ≤ e.lastTouch ∧ e.lastTouch ≤ (w'.applications i).epoch from
    ⟨live_proceeds hg hok.unhindered h.live, fun i => UInt64.le_trans (hnode i).1 hnow, fun i => (hnode i).2⟩
  intro i
  rcases hg.node i with ⟨c, q, rfl, hq, heq⟩ | ⟨a, out, heq⟩
  · have hepoch : q.1.epoch ≤ w.epoch ∧ (w.applications i).epoch ≤ q.1.epoch := by
      rcases epoch_exec hg htick hq with hq | hq
      · rw [hq]
        exact ⟨UInt64.le_refl _, h.past i⟩
      · rw [hq]
        exact ⟨h.past i, UInt64.le_refl _⟩
    rw [heq]
    exact ⟨hepoch.1, ordered_exec hq hepoch.2 (h.ordered i)⟩
  · rw [heq]
    exact ⟨h.past i, h.ordered i⟩

/-! ## The tables -/

/-- What a step makes of an entry, when no value is stored under its key. -/
theorem entry_proceeds (hg : Proceeds Γ ch w μ ran w' μ')
    (hno : ∀ j msg sm, ran = [.app j (.handleStore msg sm)] → Γ.sha1 sm.value ≠ k) (i : Fin N) :
    (w'.applications i).table.find? k = (w.applications i).table.find? k ∨
      (ran = [.app i .runTableMaintenance] ∧ (w'.applications i).table.find? k =
        ((w.applications i).table.find? k).filter (fun e => !(w.applications i).expired e)) := by
  rcases hg.node i with ⟨c, q, rfl, hq, heq⟩ | ⟨a, out, heq⟩
  · rw [heq]
    rcases exec_table hq with ht | ⟨msg, sm, rfl, ht⟩ | ⟨rfl, ht⟩
    · exact Or.inl (by rw [ht])
    · rw [ht, find?_storeValue, if_neg (fun hk => hno i msg sm rfl hk.symm)]
      exact Or.inl rfl
    · rw [ht, SortedMap.find?_filter]
      exact Or.inr ⟨rfl, rfl⟩
  · rw [heq]
    exact Or.inl rfl

/-- Whether an entry is erased, without machine arithmetic. -/
theorem expired_iff {n : KademliaNode} (h : n.config.maintenancePeriod.toNat + e.lastTouch.toNat < 2 ^ 64) :
    n.expired e = true ↔ n.config.maintenancePeriod.toNat + e.lastTouch.toNat ≤ n.epoch.toNat := by
  rw [expired, decide_eq_true_eq, UInt64.le_iff_toNat_le, UInt64.toNat_add, Nat.mod_eq_of_lt h]

/-- The node holds the key, and no maintenance of this tick will erase it. -/
def Keeps (k : KademliaKey) (w : CentralizedNetwork N) (i : Fin N) : Prop :=
  ∃ e, (w.applications i).table.find? k = some e ∧
    w.epoch.toNat < (w.applications i).config.maintenancePeriod.toNat + e.lastTouch.toNat

/-- What happens when the table of a node is maintained: it is due, at the epoch of the network, and an entry stays if it was
touched within the period. -/
theorem maintained (hg : Proceeds Γ ch w μ [.app i .runTableMaintenance] w' μ') (htick : NodeTick w μ.calls) (hclocks : Clocks w)
    (hok : WithoutChurn Γ k w [.app i .runTableMaintenance]) (hf : (w.applications i).table.find? k = some e) :
    (w.applications i).epoch = w.epoch ∧ (w.applications i).config.maintenancePeriod ≠ 0 ∧
      w.epoch % (w.applications i).config.maintenancePeriod = (w.applications i).maintenanceOffset ∧
      ((w.applications i).expired e = true ↔
        (w.applications i).config.maintenancePeriod.toNat + e.lastTouch.toNat ≤ w.epoch.toNat) := by
  obtain ⟨rest, cs, hcalls, -, -⟩ := hg.on_top (by simp) (by simp [putBack])
  rw [hcalls] at htick
  have hroom : (w.applications i).config.maintenancePeriod.toNat + e.lastTouch.toNat < 2 ^ 64 := by
    have hall := (hok _ List.mem_cons_self).2.1
    simp only [NetworkCall.inTime, List.all_eq_true, decide_eq_true_eq] at hall
    exact hall (k, e) (SortedMap.find?_eq_some_iff.1 hf)
  rcases htick.of_part_tick rfl with h | h | h | h | ⟨h, -⟩ | ⟨-, -, hepoch, hpos, hdue⟩
  · cases h
  · cases h
  · cases h
  · cases h
  · cases h
  · have hnow : (w.applications i).epoch = w.epoch := hepoch (hclocks.live i)
    rw [hnow] at hdue
    exact ⟨hnow, hpos, hdue, by rw [expired_iff hroom, hnow]⟩

/-- A node that keeps the key keeps it throughout the tick. -/
theorem Keeps.proceeds (h : Keeps k w i) (hg : Proceeds Γ ch w μ ran w' μ') (hμ : μ ≠ .finish) (htick : NodeTick w μ.calls)
    (hclocks : Clocks w) (hok : WithoutChurn Γ k w ran)
    (hno : ∀ j msg sm, ran = [.app j (.handleStore msg sm)] → Γ.sha1 sm.value ≠ k) : Keeps k w' i := by
  obtain ⟨e, hf, hlt⟩ := h
  have hconfig : (w'.applications i).config = (w.applications i).config := congrArg (·.2.1) (identity_proceeds hg i)
  refine ⟨e, ?_, by rw [hg.epoch hμ, hconfig]; exact hlt⟩
  rcases entry_proceeds hg hno i with hsame | ⟨rfl, hfilter⟩
  · exact hsame.trans hf
  · obtain ⟨-, -, -, hexp⟩ := maintained hg htick hclocks hok hf
    rw [hfilter, hf, Option.filter_some, if_pos]
    rw [Bool.not_eq_true', ← Bool.not_eq_true, hexp]
    omega

/-! ## What a node still does in its tick -/

/-- The calls that lead from the tick of a node to its maintenance. -/
def maintains : Call → Bool
  | .tick _ => true
  | .maintenanceCheck => true
  | .runTableMaintenance => true
  | _ => false

theorem of_maintains (h : maintains c = true) : (∃ t, c = .tick t) ∨ c = .maintenanceCheck ∨ c = .runTableMaintenance := by
  cases c with
  | base b => cases h
  | tick t => exact Or.inl ⟨t, rfl⟩
  | maintenanceCheck => exact Or.inr (Or.inl rfl)
  | runTableMaintenance => exact Or.inr (Or.inr rfl)
  | _ => cases h

/-- A node whose maintenance is due goes on to it. -/
theorem maintains_proceeds (h : Awaits (Leads maintains i) i w μ) (hg : Proceeds Γ ch w μ ran w' μ') (htick : NodeTick w μ.calls)
    (hclocks : Clocks w) (hok : WithoutChurn Γ k w ran)
    (hdue : w.epoch % (w.applications i).config.maintenancePeriod = (w.applications i).maintenanceOffset)
    (hrun : ran ≠ [.app i .runTableMaintenance]) : Awaits (Leads maintains i) i w' μ' := by
  refine h.proceeds hg htick hok.unhindered.ne_remove (fun a => ?_) (fun hnow => ?_)
  · exact ⟨a, _, rfl, .tick w.epoch, rfl, Or.inl List.mem_cons_self⟩
  · refine hnow.proceeds hg rfl (fun c cs hc hran he => ?_)
    obtain ⟨q, hexec, heq⟩ := CentralizedNetwork.exec_app he
    obtain ⟨rfl, rfl⟩ := Prod.mk.inj heq
    rcases of_maintains hc with ⟨t, rfl⟩ | rfl | rfl
    · cases hexec
      exact ⟨.maintenanceCheck, rfl, List.mem_cons_of_mem _ List.mem_cons_self⟩
    · subst hran
      obtain ⟨rest, cs, hcalls, -, -⟩ := hg.on_top (by simp) (by simp [putBack])
      rw [hcalls] at htick
      have hepoch : (w.applications i).epoch = w.epoch := by
        rcases htick.of_part_tick rfl with h | h | h | h | ⟨-, hepoch⟩ | ⟨h, -⟩
        · cases h
        · cases h
        · cases h
        · cases h
        · exact hepoch (hclocks.live i)
        · cases h
      simp only [exec, hepoch, if_pos hdue, Option.ite_none_left_eq_some, Option.some.injEq] at hexec
      obtain ⟨-, rfl⟩ := hexec
      exact ⟨.runTableMaintenance, rfl, List.mem_cons_self⟩
    · exact absurd hran hrun

/-! ## Custody -/

/-- The message asks its receiver to store a value whose hash is the key. -/
def StoresUnder (Γ : Ctx) (k : KademliaKey) (msg : Message UInt32) : Prop :=
  msg.type = MessageType.store.code ∧ ∀ ch, (readStore Γ ch msg).request = true ∧ Γ.sha1 (readStore Γ ch msg).value = k

/-- The calls in which a node handles such a message. -/
def HandlesStore (Γ : Ctx) (k : KademliaKey) (c : Call) : Prop :=
  (∃ msg, StoresUnder Γ k msg ∧ (c = .base (.handleMessage msg) ∨ c = .dispatch msg)) ∨
    ∃ msg sm, c = .handleStore msg sm ∧ Γ.sha1 sm.value = k

/-- Who has the key in custody: a node that has not maintained its table since the entry was touched; or a message on its way,
by the place where it is, whose sender keeps the key for the tick; or a message that is handled in this tick. -/
inductive Custody (Γ : Ctx) (k : KademliaKey) (w : CentralizedNetwork N) (μ : Moment N) : Prop where
  | fresh {i : Fin N} {e : TableEntry} (hi : w.inhabited i) (hf : (w.applications i).table.find? k = some e)
      (hpast : ∀ s, e.lastTouch.toNat ≤ s → s < w.epoch.toNat →
        s % (w.applications i).config.maintenancePeriod.toNat ≠ (w.applications i).maintenanceOffset.toNat)
      (hdue : w.epoch % (w.applications i).config.maintenancePeriod = (w.applications i).maintenanceOffset →
        Awaits (Leads maintains i) i w μ)
  | storing {i : Fin N} {a : UInt32} {v : List UInt8} (hkeeps : Keeps k w i) (hflush : Awaits (Flushes i) i w μ)
      (hv : Γ.sha1 v = k) (ha : ∃ j, w.inhabitants.find? a = some j) (hmem : .app i (.storeAt a v) ∈ μ.calls)
  | sending {i : Fin N} {msg : Message UInt32} {cb : CallbackSet SendFn} {r : UInt32} {t : UInt64} (hkeeps : Keeps k w i)
      (hflush : Awaits (Flushes i) i w μ) (hmsg : StoresUnder Γ k msg) (ha : ∃ j, w.inhabitants.find? msg.destination = some j)
      (hmem : .app i (.base (.send msg cb r t)) ∈ μ.calls)
  | queued {i : Fin N} {msg : Message UInt32} (hkeeps : Keeps k w i) (hflush : Awaits (Flushes i) i w μ)
      (hmsg : StoresUnder Γ k msg) (ha : ∃ j, w.inhabitants.find? msg.destination = some j)
      (hmem : msg ∈ (w.applications i).outqueue)
  | passing {i i' : Fin N} {a : UInt32} {total : Nat} {x : NetworkCall N} {msg : Message UInt32} (hkeeps : Keeps k w i)
      (hmsg : StoresUnder Γ k msg) (hμ : μ = .passing a i' total x)
      (hx : (x = .passAlongMessage msg ∧ ∃ j, w.inhabitants.find? msg.destination = some j) ∨
        ∃ j, w.inhabited j ∧ (x = .call j (.base (.recv msg)) ∨ x = .app j (.base (.recv msg))))
  | arrived {i j : Fin N} {msg : Message UInt32} (hkeeps : Keeps k w i) (hj : w.inhabited j) (hmsg : StoresUnder Γ k msg)
      (hmem : msg ∈ (w.applications j).inqueue)
  | waiting {j : Fin N} {msg : Message UInt32} (hdrain : Awaits (Leads drains j) j w μ) (hmsg : StoresUnder Γ k msg)
      (hmem : msg ∈ (w.applications j).inqueue)
  | handling {j : Fin N} {c : Call} (hc : HandlesStore Γ k c) (hmem : .app j c ∈ μ.calls)

/-- A node that stores a value under the key has it in custody. -/
theorem fresh_of_store {sm : StoreMessage} (hg : Proceeds Γ ch w μ [.app j (.handleStore msg sm)] w' μ') (hμ : μ.Fits w)
    (htick : NodeTick w μ.calls) (hclocks : Clocks w) (hk : Γ.sha1 sm.value = k) : Custody Γ k w' μ' := by
  obtain ⟨rest, cs, hcalls, he, hcalls'⟩ := hg.on_top (by simp) (by simp [putBack])
  rw [hcalls] at htick
  obtain ⟨⟨b, hb⟩, hepoch, hunder⟩ := htick.of_inbound rfl
  have hturn := turn_cases hg hμ hcalls hcalls' (by simp)
  obtain ⟨hinh, hnow, -⟩ := exec_app_frame he
  obtain ⟨q, hexec, heq⟩ := CentralizedNetwork.exec_app he
  obtain ⟨rfl, -⟩ := Prod.mk.inj heq
  have hepoch : (w.applications j).epoch = w.epoch := hepoch (hclocks.live j)
  have hj : (w.setApplication j q.1).inhabited j := ⟨b, hinh ▸ hb⟩
  obtain ⟨e, hf, htouch⟩ : ∃ e, q.1.table.find? k = some e ∧ e.lastTouch = w.epoch := by
    cases hexec
    refine ⟨_, (find?_storeValue _ _ _ _).trans (if_pos hk.symm), ?_⟩
    cases (w.applications j).table.find? (Γ.sha1 sm.value) with
    | none => exact hepoch
    | some old => exact hepoch
  refine .fresh hj (by rw [CentralizedNetwork.applications_setApplication_self]; exact hf) (fun s hs hlt => ?_)
    (fun _ => ⟨hj, ?_⟩)
  · rw [htouch] at hs
    exact absurd hlt (not_lt.2 hs)
  · rcases hturn with ⟨hidle, -⟩ | ⟨a, i, rfl, rfl⟩
    · exact Or.inl hidle
    · obtain rfl : j = i := turn_eq hμ (c := .base .drain) (List.mem_cons_of_mem _ (hunder _ (by simp [Loop.under]))) rfl
      refine Or.inr (Or.inr (leads_of_mem (c := .maintenanceCheck) rfl (Or.inr (List.mem_append_right _ ?_))))
      exact hunder _ (by simp [Loop.under])

/-- A period before a time at which maintenance is due it was due as well. -/
theorem not_stale {e P offset touch : Nat} (hpos : 0 < P) (hdue : e % P = offset)
    (hpast : ∀ s, touch ≤ s → s < e → s % P ≠ offset) : e < P + touch := by
  by_contra hle
  have hP : P ≤ e := by omega
  refine hpast (e - P) (by omega) (by omega) ?_
  rw [← Nat.mod_eq_sub_mod hP]
  exact hdue

/-- The calls of a maintenance: an entry that stays is sent to all contacts near its key. -/
theorem storeAt_mem {n : KademliaNode} (hf : n.table.find? k = some e) (hexp : n.expired e = false)
    (horder : e.added ≤ e.lastTouch) {entry : BucketEntry} (hentry : entry ∈ n.getNearest Γ n.config.k k n.key) :
    .storeAt entry.address e.value ∈ (n.runTableMaintenance Γ).2 := by
  unfold runTableMaintenance
  refine List.mem_flatMap.2 ⟨(k, e), ?_, ?_⟩
  · rw [SortedMap.mem_entries_filter, ← SortedMap.find?_eq_some_iff]
    exact ⟨hf, by rw [hexp]; rfl⟩
  · rw [if_pos horder]
    exact List.mem_map.2 ⟨entry, hentry, rfl⟩

/-- A node that has not maintained its table since the entry was touched keeps the entry when it does, and sends it to others.
-/
theorem storing_of_maintenance (hg : Proceeds Γ ch w μ [.app i .runTableMaintenance] w' μ') (hμ : μ.Fits w)
    (htick : NodeTick w μ.calls) (hclocks : Clocks w) (hok : WithoutChurn Γ k w [.app i .runTableMaintenance])
    (hhash : ∀ i k e, (w.applications i).table.find? k = some e → Γ.sha1 e.value = k) (hi : w.inhabited i)
    (hf : (w.applications i).table.find? k = some e)
    (hpast : ∀ s, e.lastTouch.toNat ≤ s → s < w.epoch.toNat →
      s % (w.applications i).config.maintenancePeriod.toNat ≠ (w.applications i).maintenanceOffset.toNat) :
    Custody Γ k w' μ' := by
  obtain ⟨-, hpos, hdue, hexp⟩ := maintained hg htick hclocks hok hf
  have hpos : 0 < (w.applications i).config.maintenancePeriod.toNat :=
    Nat.pos_of_ne_zero (fun h => hpos (UInt64.toNat_inj.1 h))
  have hlt := not_stale hpos (by rw [← hdue, UInt64.toNat_mod]) hpast
  have hkeep : (w.applications i).expired e = false := by
    rw [← Bool.not_eq_true, hexp]
    omega
  -- the contacts that it finds
  have hfinds := (hok _ List.mem_cons_self).2.2
  have hhas : (w.applications i).table.contains k = true := by
    rw [SortedMap.contains, hf]
    rfl
  simp only [NetworkCall.findsOthers, hhas, Bool.not_true, Bool.false_or, Bool.and_eq_true, Bool.not_eq_true',
    List.isEmpty_eq_false_iff, List.all_eq_true] at hfinds
  obtain ⟨hne, hothers⟩ := hfinds
  obtain ⟨entry, hentry⟩ := List.exists_mem_of_ne_nil _ hne
  obtain ⟨j, hj, -⟩ := (Option.any_eq_true _ _).1 (hothers entry hentry)
  have hkeeps : Keeps k w' i := by
    refine Keeps.proceeds ⟨e, hf, hlt⟩ hg ?_ htick hclocks hok (by simp)
    rintro rfl
    cases hg
  obtain ⟨rest, cs, hcalls, he, hcalls'⟩ := hg.on_top (by simp) (by simp [putBack])
  have hturn := turn_cases hg hμ hcalls hcalls' (by simp)
  obtain ⟨hinh, -, -⟩ := exec_app_frame he
  obtain ⟨q, hexec, heq⟩ := CentralizedNetwork.exec_app he
  have hcs : cs = q.2.map (.app i) := (Prod.mk.inj heq).2
  refine .storing hkeeps ⟨inhabited_of_eq hinh hi, ?_⟩ (hhash i k e hf) ⟨j, hinh ▸ hj⟩ (a := entry.address) ?_
  · rcases hturn with ⟨hidle, -⟩ | ⟨a, i', rfl, rfl⟩
    · exact Or.inl hidle
    · obtain rfl : i = i' := turn_eq hμ List.mem_cons_self rfl
      refine Or.inr (Or.inr ?_)
      cases hcs' : cs ++ rest with
      | nil => exact ⟨a, Or.inr (Or.inl ⟨0, rfl⟩)⟩
      | cons x calls => exact ⟨a, Or.inl ⟨_, rfl⟩⟩
  · rw [hcalls', hcs]
    cases hexec
    exact List.mem_append_left _ (List.mem_map_of_mem (storeAt_mem hf hkeep (hclocks.ordered i k e hf).1 hentry))

/-! ## On the way -/

/-- A request to store a value asks for that. -/
theorem storesUnder_storeRequest (hΓ : Γ.Decodes) (n : KademliaNode) (a : UInt32) {v : List UInt8} (hv : Γ.sha1 v = k) :
    StoresUnder Γ k (n.storeRequest Γ a v) := by
  refine ⟨rfl, fun ch => ?_⟩
  have hread : readStore Γ ch (n.storeRequest Γ a v) = ⟨true, n.key, v⟩ := hΓ.store _ _
  rw [hread]
  exact ⟨rfl, hv⟩

theorem storesUnder_tagged (h : StoresUnder Γ k msg) (tag : Tag) : StoresUnder Γ k (msg.tagged tag) := by
  unfold Message.tagged
  split
  · exact h
  · exact h

/-- Handling a message that stores the key leads to storing it. -/
theorem handles_exec {cs : List (NetworkCall N)} (hc : HandlesStore Γ k c)
    (he : CentralizedNetwork.exec Γ ch (.app j c) w = some (w', cs))
    (hno : ∀ msg sm, c = .handleStore msg sm → Γ.sha1 sm.value ≠ k) : ∃ c', HandlesStore Γ k c' ∧ .app j c' ∈ cs := by
  obtain ⟨q, hexec, heq⟩ := CentralizedNetwork.exec_app he
  obtain ⟨-, rfl⟩ := Prod.mk.inj heq
  rcases hc with ⟨msg, hmsg, rfl | rfl⟩ | ⟨msg, sm, rfl, hk⟩
  · cases hexec
    exact ⟨.dispatch msg, Or.inl ⟨msg, hmsg, Or.inr rfl⟩, List.mem_cons_of_mem _ List.mem_cons_self⟩
  · cases hexec
    obtain ⟨htype, hstore⟩ := hmsg
    obtain ⟨hreq, hk⟩ := hstore ch.toChoice
    have hcode : MessageType.ofCode msg.type = some .store := by
      rw [htype]
      rfl
    refine ⟨.handleStore msg (readStore Γ ch.toChoice msg), Or.inr ⟨_, _, rfl, hk⟩, List.mem_map_of_mem ?_⟩
    simp only [dispatch, hcode]
    rw [readStore] at hreq ⊢
    rw [if_pos hreq]
    exact List.mem_cons_of_mem _ (List.mem_singleton_self _)
  · exact absurd hk (hno msg sm rfl)

/-- A message that is passed along to an inhabitant arrives. -/
theorem passing_proceeds {a : UInt32} {total : Nat} {i' : Fin N} (hg : Proceeds Γ ch w (.passing a i' total x) ran w' μ')
    (hok : WithoutChurn Γ k w ran) (hkeeps : Keeps k w' i) (hmsg : StoresUnder Γ k msg)
    (hx : (x = .passAlongMessage msg ∧ ∃ j, w.inhabitants.find? msg.destination = some j) ∨
      ∃ j, w.inhabited j ∧ (x = .call j (.base (.recv msg)) ∨ x = .app j (.base (.recv msg)))) : Custody Γ k w' μ' := by
  rcases hx with ⟨rfl, j, hj⟩ | ⟨j, hj, rfl | rfl⟩
  · cases hg with
    | nobody hf =>
      rw [hf] at hj
      cases hj
    | delivers hf => exact .passing hkeeps hmsg rfl (Or.inr ⟨_, ⟨_, hf⟩, Or.inl rfl⟩)
  · cases hg with
    | hands => exact .passing hkeeps hmsg rfl (Or.inr ⟨j, hj, Or.inr rfl⟩)
  · cases hg with
    | takes => exact .arrived hkeeps (j := j) hj hmsg (inqueue_recv hok.unhindered)

/-- Custody is handed on within a tick and between two ticks. -/
theorem custody_proceeds (hΓ : Γ.Decodes) (h : Custody Γ k w μ) (hg : Proceeds Γ ch w μ ran w' μ') (hne : μ ≠ .finish)
    (hμ : μ.Fits w) (htick : NodeTick w μ.calls) (hclocks : Clocks w) (hok : WithoutChurn Γ k w ran)
    (hhash : ∀ i k e, (w.applications i).table.find? k = some e → Γ.sha1 e.value = k)
    (hno : ∀ j msg sm, ran = [.app j (.handleStore msg sm)] → Γ.sha1 sm.value ≠ k) : Custody Γ k w' μ' := by
  have hstays : ∀ {a : UInt32} {j : Fin N}, w.inhabitants.find? a = some j → w'.inhabitants.find? a = some j :=
    fun ha => hg.find? htick hok.unhindered.ne_remove ha
  have hkept : ∀ {i : Fin N}, Keeps k w i → Keeps k w' i := fun h => h.proceeds hg hne htick hclocks hok hno
  cases h with
  | @fresh i e hi hf hpast hdue =>
    by_cases hrun : ran = [.app i .runTableMaintenance]
    · subst hrun
      exact storing_of_maintenance hg hμ htick hclocks hok hhash hi hf hpast
    · have hid : (w'.applications i).identity = (w.applications i).identity := identity_proceeds hg i
      simp only [identity, Prod.mk.injEq] at hid
      obtain ⟨-, hconfig, hoffset⟩ := hid
      obtain ⟨a, ha⟩ := hi
      have hf' : (w'.applications i).table.find? k = some e :=
        ((entry_proceeds hg hno i).resolve_right (fun h => hrun h.1)).trans hf
      refine .fresh ⟨a, hstays ha⟩ hf' (fun s hs hlt => ?_) (fun h => ?_)
      · rw [hconfig, hoffset]
        rw [hg.epoch hne] at hlt
        exact hpast s hs hlt
      · rw [hg.epoch hne, hconfig, hoffset] at h
        exact maintains_proceeds (hdue h) hg htick hclocks hok h hrun
  | @storing i a v hkeeps hflush hv ha hmem =>
    obtain ⟨j, hj⟩ := ha
    have hflush' := flushes_proceeds hflush hg htick hok.unhindered (Or.inl (List.ne_nil_of_mem hmem))
    rcases hg.call hmem rfl with hmem' | ⟨rest, cs, -, -, he, hcalls'⟩
    · exact .storing (hkept hkeeps) hflush' hv ⟨j, hstays hj⟩ hmem'
    · cases he
      have hsend : .app i (.base (.send ((w.applications i).storeRequest Γ a v) .empty 16 0)) ∈ μ'.calls := by
        rw [hcalls']
        exact List.mem_cons_self
      exact .sending (hkept hkeeps) hflush' (storesUnder_storeRequest hΓ (w.applications i) a hv) ⟨j, hj⟩ hsend
  | @sending i msg cb r t hkeeps hflush hmsg ha hmem =>
    obtain ⟨j, hj⟩ := ha
    have hflush' := flushes_proceeds hflush hg htick hok.unhindered (Or.inl (List.ne_nil_of_mem hmem))
    rcases hg.call hmem rfl with hmem' | ⟨rest, cs, -, rfl, he, hcalls'⟩
    · exact .sending (hkept hkeeps) hflush' hmsg ⟨j, hstays hj⟩ hmem'
    · have hroom : (w.applications i).outqueue.length < outqueueLimit := of_decide_eq_true (hok _ List.mem_cons_self).1
      have hdest : (msg.tagged ch.tag).destination = msg.destination := by
        unfold Message.tagged
        split <;> rfl
      refine .queued (hkept hkeeps) hflush' (storesUnder_tagged hmsg ch.tag) ⟨j, ?_⟩ (outqueue_send he (hclocks.live i) hroom)
      rw [hdest]
      exact hstays hj
  | @queued i msg hkeeps hflush hmsg ha hmem =>
    obtain ⟨j, hj⟩ := ha
    have hflush' := flushes_proceeds hflush hg htick hok.unhindered (Or.inr (List.ne_nil_of_mem hmem))
    rcases queued_proceeds hg htick hok.unhindered hmem with hmem' | ⟨-, a, total, hpassing⟩
    · exact .queued (hkept hkeeps) hflush' hmsg ⟨j, hstays hj⟩ hmem'
    · exact .passing (hkept hkeeps) hmsg hpassing (Or.inl ⟨rfl, j, hstays hj⟩)
  | passing hkeeps hmsg hat hx =>
    subst hat
    exact passing_proceeds hg hok (hkept hkeeps) hmsg hx
  | @arrived i j msg hkeeps hj hmsg hmem =>
    obtain ⟨a, ha⟩ := hj
    rcases inbound_proceeds hg hmem with hmem' | hmem'
    · exact .arrived (hkept hkeeps) ⟨a, hstays ha⟩ hmsg hmem'
    · exact .handling (Or.inl ⟨msg, hmsg, Or.inl rfl⟩) hmem'
  | @waiting j msg hdrain hmsg hmem =>
    have hdrain' := drains_proceeds hdrain hg htick hclocks.live hok.unhindered (List.ne_nil_of_mem hmem)
    rcases inbound_proceeds hg hmem with hmem' | hmem'
    · exact .waiting hdrain' hmsg hmem'
    · exact .handling (Or.inl ⟨msg, hmsg, Or.inl rfl⟩) hmem'
  | @handling j c hc hmem =>
    have hwait : NetworkCall.isUserCode (.app j c) = false := by
      rcases hc with ⟨msg, -, rfl | rfl⟩ | ⟨msg, sm, rfl, -⟩ <;> rfl
    rcases hg.call hmem hwait with hmem' | ⟨rest, cs, -, hran, he, hcalls'⟩
    · exact .handling hc hmem'
    · obtain ⟨c', hc', hmem'⟩ := handles_exec hc he (fun msg sm heq => hno j msg sm (by rw [hran, heq]))
      refine .handling (j := j) hc' ?_
      rw [hcalls']
      exact List.mem_append_left _ hmem'

theorem Keeps.holds (h : Keeps k w i) : w.holds k := by
  obtain ⟨e, hf, -⟩ := h
  exact ⟨i, by rw [SortedMap.contains, hf]; rfl⟩

/-- At the end of a tick the custody is with a holder. -/
theorem custody_holds (h : Custody Γ k w .finish) : w.holds k := by
  cases h with
  | @fresh i e hi hf => exact ⟨i, by rw [SortedMap.contains, hf]; rfl⟩
  | storing hkeeps => exact hkeeps.holds
  | sending hkeeps => exact hkeeps.holds
  | queued hkeeps => exact hkeeps.holds
  | passing hkeeps => exact hkeeps.holds
  | arrived hkeeps => exact hkeeps.holds
  | waiting hdrain => exact absurd hdrain (not_awaits_finish not_leads_finish)
  | handling hc hmem => cases hmem

/-- After the end of a tick the next one can begin. -/
theorem custody_finish (h : Custody Γ k w .finish) (hroom : w.epoch.toNat + 1 < 2 ^ 64) :
    Custody Γ k { w with epoch := w.epoch + 1 } (.between []) := by
  have hnext := toNat_epoch_succ hroom
  cases h with
  | @fresh i e hi hf hpast hdue =>
    refine .fresh hi hf (fun s hs hlt => ?_) (fun _ => ⟨hi, Or.inl not_false⟩)
    rw [hnext] at hlt
    rcases Nat.lt_succ_iff_lt_or_eq.1 hlt with hlt | rfl
    · exact hpast s hs hlt
    · intro hmod
      refine not_awaits_finish not_leads_finish (hdue (UInt64.toNat_inj.1 ?_))
      rw [UInt64.toNat_mod]
      exact hmod
  | storing hkeeps hflush hv ha hmem => cases hmem
  | sending hkeeps hflush hmsg ha hmem => cases hmem
  | queued hkeeps hflush => exact absurd hflush (not_awaits_finish not_flushes_finish)
  | passing hkeeps hmsg hat => cases hat
  | arrived hkeeps hj hmsg hmem => exact .waiting ⟨hj, Or.inl not_false⟩ hmsg hmem
  | waiting hdrain => exact absurd hdrain (not_awaits_finish not_leads_finish)
  | handling hc hmem => cases hmem

/-! ## The runs -/

/-- The conditions on a step are those on the call that it runs. -/
theorem withoutChurn_ran {m m' : NetworkConfig N} {l : NetworkLabel N} (hok : withoutChurn Γ k m l = true)
    (hs : Step (networkProgram Γ N) m l m') (htrace : m'.trace = ran.map (fun x => (x, ch)) ++ m.trace) :
    WithoutChurn Γ k m.state ran := by
  refine forall_ran hs htrace (fun x rest hl hstack => ?_)
  subst hl
  simp only [withoutChurn, hstack, Bool.and_eq_true] at hok
  exact ⟨hok.1.1, hok.1.2, hok.2⟩

/-- Where the network is in a run without churn. -/
structure Situation (Γ : Ctx) (m : NetworkConfig N) (μ : Moment N) : Prop where
  stack : m.stack = μ.stack
  fits : μ.Fits m.state
  ticks : NodeTick m.state μ.calls
  clocks : Clocks m.state
  hashed : ∀ i k e, (m.state.applications i).table.find? k = some e → Γ.sha1 e.value = k

theorem hashed_proceeds (hg : Proceeds Γ ch w μ ran w' μ')
    (h : ∀ i k e, (w.applications i).table.find? k = some e → Γ.sha1 e.value = k) :
    ∀ i k e, (w'.applications i).table.find? k = some e → Γ.sha1 e.value = k := by
  intro i
  rcases hg.node i with ⟨c, q, -, hq, heq⟩ | ⟨a, out, heq⟩
  · rw [heq]
    exact IntegrityAux.exec_hashed hq (h i)
  · rw [heq]
    exact h i

theorem Situation.step {m m' : NetworkConfig N} {l : NetworkLabel N} (h : Situation Γ m μ)
    (hok : withoutChurn Γ k m l = true) (hs : Step (networkProgram Γ N) m l m') :
    ∃ ch ran μ', Situation Γ m' μ' ∧ Proceeds Γ ch m.state μ ran m'.state μ' ∧ WithoutChurn Γ k m.state ran := by
  obtain ⟨ch, ran, μ', hstack', hfits', htrace, hg⟩ := proceeds_of_step h.fits h.stack hs
  have hran := withoutChurn_ran hok hs htrace
  exact ⟨ch, ran, μ', ⟨hstack', hfits', nodeTick_step hs h.stack hstack' htrace hg h.ticks,
    clocks_proceeds h.clocks hg h.ticks hran, hashed_proceeds hg h.hashed⟩, hg, hran⟩

/-- Custody is handed on by every step. -/
theorem custody_step (hΓ : Γ.Decodes) {m m' : NetworkConfig N} (h : Situation Γ m μ) (hc : Custody Γ k m.state μ)
    (hg : Proceeds Γ ch m.state μ ran m'.state μ') (hok : WithoutChurn Γ k m.state ran) : Custody Γ k m'.state μ' := by
  by_cases hfinish : μ = .finish
  · subst hfinish
    obtain ⟨rfl, hw', rfl⟩ := hg.finish
    rw [hw']
    exact custody_finish hc (of_decide_eq_true (hok _ List.mem_cons_self).2.1)
  · by_cases hstore : ∃ j msg sm, ran = [.app j (.handleStore msg sm)] ∧ Γ.sha1 sm.value = k
    · obtain ⟨j, msg, sm, rfl, hk⟩ := hstore
      exact fresh_of_store hg h.fits h.ticks h.clocks hk
    · exact custody_proceeds hΓ hc hg hfinish h.fits h.ticks h.clocks hok h.hashed
        (fun j msg sm hran hk => hstore ⟨j, msg, sm, hran, hk⟩)

/-- The first node that holds a key has it in custody. -/
theorem custody_begins {m m' : NetworkConfig N} (h : Situation Γ m μ) (hno : ¬ m.state.holds k)
    (hg : Proceeds Γ ch m.state μ ran m'.state μ') (hholds : m'.state.holds k) : Custody Γ k m'.state μ' := by
  by_cases hstore : ∃ j msg sm, ran = [.app j (.handleStore msg sm)] ∧ Γ.sha1 sm.value = k
  · obtain ⟨j, msg, sm, rfl, hk⟩ := hstore
    exact fresh_of_store hg h.fits h.ticks h.clocks hk
  · exfalso
    obtain ⟨i, hi⟩ := hholds
    obtain ⟨e, hf⟩ := Option.isSome_iff_exists.1 hi
    refine hno ⟨i, ?_⟩
    rcases entry_proceeds hg (fun j msg sm hran hk => hstore ⟨j, msg, sm, hran, hk⟩) i with hsame | ⟨-, hfilter⟩
    · rw [SortedMap.contains, ← hsame, hf]
      rfl
    · rw [hfilter, Option.filter_eq_some_iff] at hf
      rw [SortedMap.contains, hf.1]
      rfl

/-- A key is in custody, or no node holds it. -/
theorem custody_of_run (hΓ : Γ.Decodes) {config : Fin N → Config} {key : Fin N → KademliaKey} {offset : Fin N → Time}
    {limit : UInt32} {m : NetworkConfig N}
    (h : Run (networkProgram Γ N) (fun m l => withoutChurn Γ k m l = true) (startNetwork config key offset limit) m) :
    ∃ μ, Situation Γ m μ ∧ (Custody Γ k m.state μ ∨ ¬ m.state.holds k) := by
  refine h.invariant (I := fun m => ∃ μ, Situation Γ m μ ∧ (Custody Γ k m.state μ ∨ ¬ m.state.holds k)) ?_ ?_
  · refine ⟨.between [], ⟨rfl, fun x hx => absurd hx List.not_mem_nil, nodeTick_nil,
      ⟨fun i => rfl, fun i => UInt64.le_refl _, ?_⟩, ?_⟩, Or.inr ?_⟩
    · intro i k e hf
      cases hf
    · intro i k e hf
      cases hf
    · rintro ⟨i, hi⟩
      cases hi
  · rintro m l m' - ⟨μ, hsit, hc⟩ hok hs
    obtain ⟨ch, ran, μ', hsit', hg, hran⟩ := hsit.step hok hs
    refine ⟨μ', hsit', ?_⟩
    rcases hc with hc | hno
    · exact Or.inl (custody_step hΓ hsit hc hg hran)
    · by_cases hholds : m'.state.holds k
      · exact Or.inl (custody_begins hsit hno hg hholds)
      · exact Or.inr hholds

end DurabilityAux

open DurabilityAux

/-- Durability without churn. In a run in which no node dies or is removed, no limit of a queue or of a link is hit, `Time`
does not wrap, and a holder of the key that maintains its table finds contacts for it, all of them at addresses of other
inhabitants: once some node's table contains the key, some node's table contains it at the end of every later tick of the
network. -/
theorem durability {N : Nat} {Γ : Ctx} (hΓ : Γ.Decodes) {config : Fin N → Config} {key : Fin N → KademliaKey}
    {offset : Fin N → Time} {limit : UInt32} {k : KademliaKey} {m₁ m₂ : NetworkConfig N}
    (h₁ : Run (networkProgram Γ N) (fun m l => withoutChurn Γ k m l = true) (startNetwork config key offset limit) m₁)
    (hheld : m₁.state.holds k) (h₂ : Run (networkProgram Γ N) (fun m l => withoutChurn Γ k m l = true) m₁ m₂)
    (hend : m₂.stack = [.endTick]) : m₂.state.holds k := by
  obtain ⟨μ₁, hsit₁, hc₁⟩ := custody_of_run hΓ h₁
  have hc₁ : Custody Γ k m₁.state μ₁ := hc₁.resolve_right (fun hno => hno hheld)
  obtain ⟨μ₂, hsit₂, hc₂⟩ : ∃ μ, Situation Γ m₂ μ ∧ Custody Γ k m₂.state μ := by
    refine h₂.invariant (I := fun m => ∃ μ, Situation Γ m μ ∧ Custody Γ k m.state μ) ⟨μ₁, hsit₁, hc₁⟩ ?_
    rintro m l m' - ⟨μ, hsit, hc⟩ hok hs
    obtain ⟨ch, ran, μ', hsit', hg, hran⟩ := hsit.step hok hs
    exact ⟨μ', hsit', custody_step hΓ hsit hc hg hran⟩
  obtain rfl : μ₂ = .finish := eq_finish_of_stack hsit₂.fits (hsit₂.stack.symm.trans hend)
  exact custody_holds hc₂

/-- Two nodes join after the first tick, and one stores a value at the other, which does so in the next tick. -/
def storeAfterTick {N : Nat} (i j : Fin N) : List (NetworkLabel N) :=
  [.enter .tick] ++ networkRuns 0 0 3 ++ [.enter (.add i)] ++ networkRuns 5 1 9 ++ [.enter (.add j)] ++ networkRuns 7 10 9 ++
    [.enter (.app i (.storeAt 7 [1, 2, 3]))] ++ networkRuns 0 20 2 ++ [.enter .tick] ++ networkRuns 0 22 24

/-- The other node sends the value back in the tick after. -/
theorem durability_sample : ∃ m : NetworkConfig 2, m.stack = [.endTick] ∧ m.state.epoch = 2 ∧ m.state.holds (sha1 [1, 2, 3]) := by
  obtain ⟨m₁, h₁, hm₁⟩ := exists_run_of_follow (networkProgram .reference 2) (withoutChurn .reference (sha1 [1, 2, 3]))
    (startNetwork (fun _ => ⟨20, 2, 1000⟩) (fun i => .starting (if i = 0 then 0 else 128)) (fun _ => 0) 1024)
    (storeAfterTick 0 1) (fun m₁ : NetworkConfig 2 => (m₁.state.applications 1).table.contains (sha1 [1, 2, 3]) &&
      (follow (networkProgram .reference 2) (withoutChurn .reference (sha1 [1, 2, 3])) m₁
        (networkRuns 0 46 12 ++ [.enter .tick] ++ networkRuns 0 58 33)).any (fun m₂ : NetworkConfig 2 =>
          decide (m₂.stack = [.endTick]) && decide (m₂.state.epoch = 2))) (by decide +kernel)
  rw [Bool.and_eq_true] at hm₁
  obtain ⟨m₂, h₂, hm₂⟩ := exists_run_of_follow _ _ _ _ _ hm₁.2
  simp only [Bool.and_eq_true, decide_eq_true_eq] at hm₂
  exact ⟨m₂, hm₂.1, hm₂.2, durability Ctx.reference_decodes h₁ ⟨1, hm₁.1⟩ h₂ hm₂.1⟩

end Dhtsim
