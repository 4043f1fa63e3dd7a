import Dhtsim.Model.Experiment
import Dhtsim.Lemmas.NetworkCalls

/-!
# The population of an experiment

What `main` and the experiment are for, without the messages: nodes that live at addresses, each in a slot of `nodes`, while time
passes tick by tick and one node after the other is replaced. A configuration of the program has an `Outline`, and an outline is
`Populated` when the inhabitants of the network are the nodes in the slots, each alive at an address of its own.
-/

namespace Dhtsim

open CallMachine

/-- What there is of the nodes and of the time, and what was printed about them. -/
structure Outline (N : Nat) where
  address : Fin N → UInt32
  dead : Fin N → Bool
  inhabitants : SortedMap UInt32 (Fin N)
  nodes : List (Fin N)
  made : Nat
  slots : Nat
  keys : List KademliaKey
  epoch : Time
  /-- The epochs of the lines `[E] T`, the last one first. -/
  ticked : List Time
  /-- The number of lines `[E] R`. -/
  replaced : Nat

/-- The epoch of a line `[E] T`. -/
def Line.ticked : Line → Option Time
  | .transferred epoch _ => some epoch
  | _ => none

def Line.isReplaced : Line → Bool
  | .replaced _ => true
  | _ => false

/-- The outline of a state of the program. -/
def outline {N : Nat} (s : RecordedNetwork N × Experiment N) : Outline N where
  address i := (s.1.network.applications i).address
  dead i := (s.1.network.applications i).dead
  inhabitants := s.1.network.inhabitants
  nodes := s.2.nodes
  made := s.2.made
  slots := s.2.waiting.length
  keys := s.2.storedDataKeys
  epoch := s.1.network.epoch
  ticked := s.2.transcript.filterMap Line.ticked
  replaced := s.2.transcript.countP Line.isReplaced

namespace Outline

variable {N : Nat} {o : Outline N} {i j new old : Fin N} {a : UInt32} {v : Nat}

/-- The outline when `main` starts. -/
def start : Outline N where
  address _ := 0
  dead _ := false
  inhabitants := .empty
  nodes := []
  made := 0
  slots := 0
  keys := []
  epoch := 0
  ticked := []
  replaced := 0

/-! ## What happens to a population -/

def die (o : Outline N) (i : Fin N) : Outline N := { o with dead := Function.update o.dead i true }

def remove (o : Outline N) (i : Fin N) : Outline N := { o with inhabitants := o.inhabitants.erase (o.address i) }

def settle (o : Outline N) (i : Fin N) (a : UInt32) : Outline N :=
  { o with address := Function.update o.address i a, inhabitants := o.inhabitants.insert a i }

def tick (o : Outline N) : Outline N := { o with epoch := o.epoch + 1, ticked := o.epoch :: o.ticked }

/-- The next node is made. -/
def make (o : Outline N) : Outline N := { o with made := o.made + 1 }

def push (o : Outline N) (i : Fin N) : Outline N := { o with nodes := o.nodes ++ [i] }

/-- The line `[E] R` is printed. -/
def announce (o : Outline N) : Outline N := { o with replaced := o.replaced + 1 }

def install (o : Outline N) (v : Nat) (i : Fin N) : Outline N := { o with nodes := o.nodes.set v i }

/-- No dead node is an inhabitant. -/
def Live (o : Outline N) : Prop := ∀ a i, o.inhabitants.find? a = some i → o.dead i = false

/-- An address that no node ever had. -/
def Unused (o : Outline N) (a : UInt32) : Prop := a ≠ 0 ∧ ∀ j, o.address j ≠ a

/-- An address that the network draws: where somebody lives it draws none. Draws that are `fresh` are of unused addresses. -/
def Drawn (fresh : Prop) (o : Outline N) (a : UInt32) : Prop :=
  (a ≠ 0 → o.inhabitants.find? a = none) ∧ (fresh → o.Unused a)

/-- The network adds a node: it settles, if an address was found for it. -/
def add (o : Outline N) (i : Fin N) (a : UInt32) : Outline N := if a = 0 then o else o.settle i a

/-- The nodes in the slots live, and those of them that have an address are the inhabitants of the network; the others that were
made are dead. When the draws are `fresh`, every node in a slot has an address, and it is its own for good. -/
structure Populated (fresh : Prop) (o : Outline N) : Prop where
  nodup : o.nodes.Nodup
  made : ∀ i ∈ o.nodes, i.val < o.made
  alive : ∀ i ∈ o.nodes, o.dead i = false
  inhabits : ∀ a i, o.inhabitants.find? a = some i ↔ (i ∈ o.nodes ∧ o.address i = a) ∧ a ≠ 0
  retired : ∀ i, i.val < o.made → i ∉ o.nodes → o.dead i = true
  unmade : ∀ i, o.made ≤ i.val → o.dead i = false ∧ o.address i = 0
  settled : fresh → ∀ i ∈ o.nodes, o.address i ≠ 0
  unique : fresh → ∀ i j, o.address i = o.address j → o.address i ≠ 0 → i = j

variable {fresh : Prop}

theorem Populated.live (h : o.Populated fresh) : o.Live := fun _ _ hi => h.alive _ ((h.inhabits _ _).1 hi).1.1

/-- A node that is yet to be made is in no slot. -/
theorem Populated.not_mem (h : o.Populated fresh) (hi : i.val = o.made) : i ∉ o.nodes := by
  intro hmem
  have := h.made i hmem
  omega

/-- A node that was made keeps its address when a new one settles. -/
theorem address_settle_of_ne (h : j ≠ i) : (o.settle i a).address j = o.address j := Function.update_of_ne h ..

@[simp] theorem address_settle_self : (o.settle i a).address i = a := Function.update_self ..

/-- A node that is added may get an address: of the others nothing changes. -/
theorem exists_add (o : Outline N) (i : Fin N) (a : UInt32) :
    ∃ f m, o.add i a = { o with address := f, inhabitants := m } ∧ ∀ j, j ≠ i → f j = o.address j := by
  unfold Outline.add
  split_ifs
  · exact ⟨o.address, o.inhabitants, rfl, fun _ _ => rfl⟩
  · exact ⟨_, _, rfl, fun _ hj => address_settle_of_ne hj⟩

theorem address_add_self (h : a ≠ 0) : (o.add i a).address i = a := by
  rw [Outline.add, if_neg h]
  exact address_settle_self

/-- A new node at an unused address: the addresses stay apart. -/
theorem unique_settle (hunique : ∀ i j, o.address i = o.address j → o.address i ≠ 0 → i = j) (ha : o.Unused a) :
    ∀ j k, (o.settle i a).address j = (o.settle i a).address k → (o.settle i a).address j ≠ 0 → j = k := by
  intro j k heq hne
  by_cases hj : j = i
  · by_cases hk : k = i
    · rw [hj, hk]
    · subst hj
      rw [address_settle_self, address_settle_of_ne hk] at heq
      exact absurd heq.symm (ha.2 k)
  · rw [address_settle_of_ne hj] at heq hne
    by_cases hk : k = i
    · subst hk
      rw [address_settle_self] at heq
      exact absurd heq (ha.2 j)
    · rw [address_settle_of_ne hk] at heq
      exact hunique j k heq hne

/-- At the start there is nobody. -/
theorem populated_start : (start : Outline N).Populated fresh where
  nodup := List.nodup_nil
  made i hi := by cases hi
  alive i hi := by cases hi
  inhabits a i := ⟨fun h => (by cases h), fun h => (by cases h.1.1)⟩
  retired i hi := absurd hi (Nat.not_lt_zero _)
  unmade i _ := ⟨rfl, rfl⟩
  settled _ i hi := by cases hi
  unique _ i j _ hne := absurd rfl hne

/-- The node in a slot that has no address yet is added to the network. -/
theorem Populated.add (h : o.Populated False) (hnew : new ∈ o.nodes) (hzero : o.address new = 0)
    (hsettled : fresh → ∀ i ∈ o.nodes, i ≠ new → o.address i ≠ 0)
    (hunique : fresh → ∀ i j, o.address i = o.address j → o.address i ≠ 0 → i = j) (ha : o.Drawn fresh a) :
    (o.add new a).Populated fresh := by
  unfold Outline.add
  split_ifs with hzero'
  · exact ⟨h.nodup, h.made, h.alive, h.inhabits, h.retired, h.unmade, fun hf => absurd hzero' (ha.2 hf).1, hunique⟩
  have hfree := ha.1 hzero'
  exact {
    nodup := h.nodup
    made := h.made
    alive := h.alive
    inhabits := by
      intro b j
      change (o.inhabitants.insert a new).find? b = some j ↔ (j ∈ o.nodes ∧ (o.settle new a).address j = b) ∧ b ≠ 0
      rw [SortedMap.find?_insert]
      by_cases hj : j = new
      · subst hj
        rw [address_settle_self]
        split_ifs with hb
        · exact ⟨fun _ => ⟨⟨hnew, hb.symm⟩, hb ▸ hzero'⟩, fun _ => rfl⟩
        · rw [h.inhabits, hzero]
          exact ⟨fun hj => absurd hj.1.2.symm hj.2, fun hj => absurd hj.1.2.symm hb⟩
      · rw [address_settle_of_ne hj]
        split_ifs with hb
        · refine ⟨fun hj' => absurd (Option.some.inj hj').symm hj, fun hj' => ?_⟩
          rw [← h.inhabits, hb, hfree] at hj'
          cases hj'
        · exact h.inhabits b j
    retired := h.retired
    unmade := by
      intro j hj
      have hle : o.made ≤ j.val := hj
      have hne : j ≠ new := by
        rintro rfl
        have := h.made j hnew
        omega
      rw [address_settle_of_ne hne]
      exact h.unmade j hle
    settled := by
      intro hf j hj
      by_cases hne : j = new
      · rw [hne, address_settle_self]
        exact hzero'
      · rw [address_settle_of_ne hne]
        exact hsettled hf j hj hne
    unique := fun hf => unique_settle (hunique hf) (ha.2 hf) }

/-- A new node in a new slot, not yet added. -/
theorem Populated.push (h : o.Populated fresh) (hi : i.val = o.made) : (o.make.push i).Populated False := by
  have hnot := h.not_mem hi
  have hmem : ∀ j, j ∈ (o.make.push i).nodes ↔ j ∈ o.nodes ∨ j = i := fun j => by
    rw [← List.mem_singleton, ← List.mem_append]
    rfl
  exact {
    nodup := by
      refine List.nodup_append.2 ⟨h.nodup, List.nodup_singleton i, fun j hj k hk he => ?_⟩
      rw [List.mem_singleton.1 hk] at he
      exact hnot (he ▸ hj)
    made := by
      intro j hj
      rcases (hmem j).1 hj with hj | rfl
      · exact Nat.lt_succ_of_lt (h.made j hj)
      · exact hi ▸ Nat.lt_succ_self _
    alive := by
      intro j hj
      rcases (hmem j).1 hj with hj | rfl
      · exact h.alive j hj
      · exact (h.unmade j hi.ge).1
    inhabits := by
      intro b j
      refine (h.inhabits b j).trans ⟨fun hj => ⟨⟨(hmem j).2 (Or.inl hj.1.1), hj.1.2⟩, hj.2⟩, fun hj => ⟨⟨?_, hj.1.2⟩, hj.2⟩⟩
      refine ((hmem j).1 hj.1.1).resolve_right fun he => hj.2 ?_
      rw [← hj.1.2, he]
      exact (h.unmade i hi.ge).2
    retired := by
      intro j hj hnotin
      have hlt : j.val < o.made + 1 := hj
      have hval : j.val ≠ i.val := fun he => hnotin ((hmem j).2 (Or.inr (Fin.ext he)))
      exact h.retired j (by omega) fun hj => hnotin ((hmem j).2 (Or.inl hj))
    unmade := fun j hj => h.unmade j (Nat.le_of_succ_le hj)
    settled := nofun
    unique := nofun }

/-- A new node in a new slot. -/
theorem Populated.join (h : o.Populated fresh) (hi : i.val = o.made) (ha : o.Drawn fresh a) :
    ((o.make.push i).add i a).Populated fresh := by
  refine Populated.add (o := o.make.push i) (h.push hi) (List.mem_append_right _ (List.mem_singleton_self i))
    (h.unmade i hi.ge).2 (fun hf j hj hne => ?_) h.unique ha
  exact h.settled hf j ((List.mem_append.1 hj).resolve_right fun hj => hne (List.mem_singleton.1 hj))

/-- A slot whose node is replaced: the other nodes of the population stay. -/
theorem mem_set (hnodup : o.nodes.Nodup) (hv : o.nodes[v]? = some old) (new : Fin N) :
    ∀ j, j ∈ o.nodes.set v new ↔ j = new ∨ j ∈ o.nodes ∧ j ≠ old := by
  obtain ⟨hlt, hget⟩ := List.getElem?_eq_some_iff.1 hv
  obtain ⟨l₁, l₂, hl, -, hset⟩ : ∃ l₁ l₂, o.nodes = l₁ ++ o.nodes[v] :: l₂ ∧ l₁.length = v ∧ o.nodes.set v new = l₁ ++ new :: l₂ :=
    List.exists_of_set hlt
  rw [hget] at hl
  have hperm : o.nodes.Perm (old :: (l₁ ++ l₂)) := hl ▸ List.perm_middle
  have hnot : old ∉ l₁ ++ l₂ := (List.nodup_cons.1 (hperm.nodup_iff.1 hnodup)).1
  intro j
  rw [hset, List.perm_middle.mem_iff, List.mem_cons, hperm.mem_iff, List.mem_cons]
  refine or_congr_right ⟨fun h => ⟨Or.inr h, fun he => hnot (he ▸ h)⟩, ?_⟩
  rintro ⟨rfl | h, hne⟩
  · exact absurd rfl hne
  · exact h

theorem nodup_set (hnodup : o.nodes.Nodup) (hv : o.nodes[v]? = some old) (hnew : new ∉ o.nodes) :
    (o.nodes.set v new).Nodup := by
  obtain ⟨hlt, hget⟩ := List.getElem?_eq_some_iff.1 hv
  obtain ⟨l₁, l₂, hl, -, hset⟩ : ∃ l₁ l₂, o.nodes = l₁ ++ o.nodes[v] :: l₂ ∧ l₁.length = v ∧ o.nodes.set v new = l₁ ++ new :: l₂ :=
    List.exists_of_set hlt
  rw [hget] at hl
  have hperm : o.nodes.Perm (old :: (l₁ ++ l₂)) := hl ▸ List.perm_middle
  rw [hset, List.perm_middle.nodup_iff]
  refine List.nodup_cons.2 ⟨fun h => hnew ?_, (List.nodup_cons.1 (hperm.nodup_iff.1 hnodup)).2⟩
  exact hperm.mem_iff.2 (List.mem_cons_of_mem _ h)

/-- The node of a slot is killed and removed, and a new one, not yet added, takes its place. -/
theorem Populated.succeed (h : o.Populated fresh) (hv : o.nodes[v]? = some old) (hi : new.val = o.made) :
    (((o.make.die old).remove old).install v new).Populated False := by
  have hold : old ∈ o.nodes := List.mem_of_getElem? hv
  have hnot := h.not_mem hi
  have hne : ∀ j ∈ o.nodes, j ≠ new := fun j hj he => hnot (he ▸ hj)
  have hmem := mem_set h.nodup hv new
  have hdead : ∀ j, j ≠ old → Function.update o.dead old true j = o.dead j := fun j hj => Function.update_of_ne hj ..
  exact {
    nodup := nodup_set h.nodup hv hnot
    made := by
      intro j hj
      rcases (hmem j).1 hj with rfl | ⟨hj, -⟩
      · exact hi ▸ Nat.lt_succ_self _
      · exact Nat.lt_succ_of_lt (h.made j hj)
    alive := by
      intro j hj
      rcases (hmem j).1 hj with rfl | ⟨hj, hjold⟩
      · exact (hdead j (hne old hold).symm).trans (h.unmade j hi.ge).1
      · exact (hdead j hjold).trans (h.alive j hj)
    inhabits := by
      intro b j
      change (o.inhabitants.erase (o.address old)).find? b = some j ↔ (j ∈ o.nodes.set v new ∧ o.address j = b) ∧ b ≠ 0
      rw [SortedMap.find?_erase, hmem]
      split_ifs with hb
      · refine ⟨fun h => (by cases h), ?_⟩
        rintro ⟨⟨rfl | ⟨hj, hjold⟩, haddr⟩, hb0⟩
        · exact absurd (haddr.symm.trans (h.unmade j hi.ge).2) hb0
        · have hj' := (h.inhabits b j).2 ⟨⟨hj, haddr⟩, hb0⟩
          have hold' := (h.inhabits b old).2 ⟨⟨hold, hb.symm⟩, hb0⟩
          exact absurd (Option.some.inj (hj'.symm.trans hold')) hjold
      · rw [h.inhabits]
        refine ⟨fun hj => ⟨⟨Or.inr ⟨hj.1.1, fun he => hb (he ▸ hj.1.2.symm)⟩, hj.1.2⟩, hj.2⟩, ?_⟩
        rintro ⟨⟨rfl | ⟨hj, -⟩, haddr⟩, hb0⟩
        · exact absurd (haddr.symm.trans (h.unmade j hi.ge).2) hb0
        · exact ⟨⟨hj, haddr⟩, hb0⟩
    retired := by
      intro j hj hnotin
      have hlt : j.val < o.made + 1 := hj
      have hjnew : j ≠ new := fun he => hnotin ((hmem j).2 (Or.inl he))
      have hval : j.val ≠ new.val := fun he => hjnew (Fin.ext he)
      by_cases hjold : j = old
      · rw [hjold]
        exact Function.update_self ..
      · exact (hdead j hjold).trans (h.retired j (by omega) fun hj => hnotin ((hmem j).2 (Or.inr ⟨hj, hjold⟩)))
    unmade := by
      intro j hj
      have hle : o.made + 1 ≤ j.val := hj
      have hjold : j ≠ old := by
        rintro rfl
        have := h.made j hold
        omega
      exact ⟨(hdead j hjold).trans (h.unmade j (Nat.le_of_succ_le hle)).1, (h.unmade j (Nat.le_of_succ_le hle)).2⟩
    settled := nofun
    unique := nofun }

/-- The node of a slot is killed and removed, and a new one takes its place. -/
theorem Populated.replace (h : o.Populated fresh) (hv : o.nodes[v]? = some old) (hi : new.val = o.made)
    (ha : ((o.make.die old).remove old).Drawn fresh a) :
    ((((o.make.die old).remove old).add new a).install v new).Populated fresh := by
  have hmem := mem_set h.nodup hv new
  -- The slot is filled after the node was added: the outline is the same.
  have hswap : (((o.make.die old).remove old).add new a).install v new =
      (((o.make.die old).remove old).install v new).add new a := by
    unfold Outline.add
    split_ifs <;> rfl
  rw [hswap]
  refine Populated.add (o := ((o.make.die old).remove old).install v new) (h.succeed hv hi) ((hmem new).2 (Or.inl rfl))
    (h.unmade new hi.ge).2 (fun hf j hj hjnew => ?_) h.unique ha
  exact h.settled hf j (((hmem j).1 hj).resolve_left hjnew).1

end Outline

end Dhtsim
