import Mathlib.Order.Lattice
import Mathlib.Data.List.Basic

/-!
# Maps kept in key order

A finite map whose entries are stored in increasing key order, as an ordered tree map iterates over them. `find?` reads an
entry, `insert` assigns one, `erase` removes one, and `next` is the iterator: the first entry, or the first one after a key.
-/

/-- A finite map, its entries in increasing key order. -/
structure SortedMap (κ ν : Type) [LinearOrder κ] where
  entries : List (κ × ν)
  sorted : entries.Pairwise (fun a b => a.1 < b.1)

namespace SortedMap

variable {κ ν : Type} [LinearOrder κ]

/-- Assign a value to a key in a list of entries, in front of the first larger key. -/
def insertEntry (k : κ) (v : ν) : List (κ × ν) → List (κ × ν)
  | [] => [(k, v)]
  | e :: l => if k < e.1 then (k, v) :: e :: l else if e.1 = k then (k, v) :: l else e :: insertEntry k v l

theorem mem_insertEntry {k : κ} {v : ν} {l : List (κ × ν)} {e : κ × ν} (h : e ∈ insertEntry k v l) :
    e = (k, v) ∨ e ∈ l := by
  induction l with
  | nil => exact Or.inl (List.mem_singleton.1 h)
  | cons a l ih =>
    simp only [insertEntry] at h
    split_ifs at h
    · exact List.mem_cons.1 h
    · exact (List.mem_cons.1 h).imp_right (List.mem_cons_of_mem _)
    · rcases List.mem_cons.1 h with h | h
      · exact Or.inr (h ▸ List.mem_cons_self)
      · exact (ih h).imp_right (List.mem_cons_of_mem _)

theorem sorted_insertEntry (k : κ) (v : ν) {l : List (κ × ν)} (h : l.Pairwise (fun a b => a.1 < b.1)) :
    (insertEntry k v l).Pairwise (fun a b => a.1 < b.1) := by
  induction l with
  | nil => exact List.pairwise_singleton _ _
  | cons a l ih =>
    obtain ⟨ha, hl⟩ := List.pairwise_cons.1 h
    simp only [insertEntry]
    split_ifs with h1 h2
    · refine List.pairwise_cons.2 ⟨fun e he => ?_, h⟩
      rcases List.mem_cons.1 he with rfl | he
      · exact h1
      · exact lt_trans h1 (ha e he)
    · exact List.pairwise_cons.2 ⟨fun e he => h2 ▸ ha e he, hl⟩
    · refine List.pairwise_cons.2 ⟨fun e he => ?_, ih hl⟩
      rcases mem_insertEntry he with rfl | he
      · exact lt_of_le_of_ne (not_lt.1 h1) h2
      · exact ha e he

/-- The map without entries. -/
def empty : SortedMap κ ν := ⟨[], List.Pairwise.nil⟩

/-- The value of a key. -/
def find? (m : SortedMap κ ν) (k : κ) : Option ν := (m.entries.find? (fun e => decide (e.1 = k))).map (·.2)

/-- Whether the map has an entry for the key. -/
def contains (m : SortedMap κ ν) (k : κ) : Bool := (m.find? k).isSome

/-- Assign a value to a key. -/
def insert (m : SortedMap κ ν) (k : κ) (v : ν) : SortedMap κ ν :=
  ⟨insertEntry k v m.entries, sorted_insertEntry k v m.sorted⟩

/-- Keep the entries that satisfy `p`. -/
def filter (m : SortedMap κ ν) (p : κ × ν → Bool) : SortedMap κ ν :=
  ⟨m.entries.filter p, m.sorted.filter p⟩

/-- Remove a key. -/
def erase (m : SortedMap κ ν) (k : κ) : SortedMap κ ν := m.filter (fun e => decide (e.1 ≠ k))

/-- The first entry of the map, or the first one whose key is greater than `after`. -/
def next (m : SortedMap κ ν) : Option κ → Option (κ × ν)
  | none => m.entries.head?
  | some after => m.entries.find? (fun e => decide (after < e.1))

/-- The entries of the map have different keys. -/
theorem eq_of_mem (m : SortedMap κ ν) {k : κ} {v w : ν} (hv : (k, v) ∈ m.entries) (hw : (k, w) ∈ m.entries) : v = w := by
  obtain ⟨l, hl⟩ := m
  simp only at hv hw
  induction hl with
  | nil => exact absurd hv List.not_mem_nil
  | @cons a l ha _ ih =>
    rcases List.mem_cons.1 hv with h | hv'
    · rcases List.mem_cons.1 hw with h' | hw'
      · exact congrArg Prod.snd (h.trans h'.symm)
      · exact absurd (ha _ hw') (h ▸ lt_irrefl k)
    · rcases List.mem_cons.1 hw with h' | hw'
      · exact absurd (ha _ hv') (h' ▸ lt_irrefl k)
      · exact ih hv' hw'

/-- The value found is the one of the key's entry. -/
theorem find?_eq_some_iff {m : SortedMap κ ν} {k : κ} {v : ν} : m.find? k = some v ↔ (k, v) ∈ m.entries := by
  unfold find?
  constructor
  · intro h
    obtain ⟨e, he, rfl⟩ := Option.map_eq_some_iff.1 h
    have hk : e.1 = k := by simpa using List.find?_some he
    have hm := List.mem_of_find?_eq_some he
    rw [← hk]
    exact hm
  · intro h
    cases hf : m.entries.find? (fun e => decide (e.1 = k)) with
    | none =>
      have := List.find?_eq_none.1 hf _ h
      simp at this
    | some e =>
      have hk : e.1 = k := by simpa using List.find?_some hf
      have hm := List.mem_of_find?_eq_some hf
      obtain ⟨k', w⟩ := e
      simp only at hk
      subst hk
      rw [Option.map_some, m.eq_of_mem hm h]

theorem find?_eq_none_iff {m : SortedMap κ ν} {k : κ} : m.find? k = none ↔ ∀ v, (k, v) ∉ m.entries := by
  constructor
  · intro h v hv
    rw [find?_eq_some_iff.2 hv] at h
    cases h
  · intro h
    cases hf : m.find? k with
    | none => rfl
    | some v => exact absurd (find?_eq_some_iff.1 hf) (h v)

@[simp] theorem find?_empty (k : κ) : (empty : SortedMap κ ν).find? k = none := rfl

@[simp] theorem entries_empty : (empty : SortedMap κ ν).entries = [] := rfl

/-- The entries after an assignment: the new one, and the old ones of other keys. -/
theorem mem_entries_insert {m : SortedMap κ ν} {k : κ} {v : ν} {e : κ × ν} :
    e ∈ (m.insert k v).entries ↔ e = (k, v) ∨ (e ∈ m.entries ∧ e.1 ≠ k) := by
  obtain ⟨l, hl⟩ := m
  simp only [insert]
  induction l with
  | nil => simp [insertEntry]
  | cons a l ih =>
    obtain ⟨ha, hl'⟩ := List.pairwise_cons.1 hl
    simp only [insertEntry]
    split_ifs with h1 h2
    · have hne : ∀ e' ∈ a :: l, e'.1 ≠ k := by
        intro e' he'
        rcases List.mem_cons.1 he' with rfl | he'
        · exact ne_of_gt h1
        · exact ne_of_gt (lt_trans h1 (ha e' he'))
      rw [List.mem_cons]
      exact or_congr_right ⟨fun h => ⟨h, hne e h⟩, fun h => h.1⟩
    · have hne : ∀ e' ∈ l, e'.1 ≠ k := fun e' he' => ne_of_gt (h2 ▸ ha e' he')
      rw [List.mem_cons, List.mem_cons]
      constructor
      · rintro (h | h)
        · exact Or.inl h
        · exact Or.inr ⟨Or.inr h, hne e h⟩
      · rintro (h | ⟨rfl | h, hk⟩)
        · exact Or.inl h
        · exact absurd h2 hk
        · exact Or.inr h
    · rw [List.mem_cons, ih hl', List.mem_cons]
      constructor
      · rintro (rfl | h | ⟨h, hk⟩)
        · exact Or.inr ⟨Or.inl rfl, h2⟩
        · exact Or.inl h
        · exact Or.inr ⟨Or.inr h, hk⟩
      · rintro (h | ⟨rfl | h, hk⟩)
        · exact Or.inr (Or.inl h)
        · exact Or.inl rfl
        · exact Or.inr (Or.inr ⟨h, hk⟩)

@[simp] theorem mem_entries_filter {m : SortedMap κ ν} {p : κ × ν → Bool} {e : κ × ν} :
    e ∈ (m.filter p).entries ↔ e ∈ m.entries ∧ p e = true := List.mem_filter

/-- The entries after an erasure: those of other keys. -/
@[simp] theorem mem_entries_erase {m : SortedMap κ ν} {k : κ} {e : κ × ν} :
    e ∈ (m.erase k).entries ↔ e ∈ m.entries ∧ e.1 ≠ k := by
  simp [erase]

@[simp] theorem find?_insert_self (m : SortedMap κ ν) (k : κ) (v : ν) : (m.insert k v).find? k = some v :=
  find?_eq_some_iff.2 (mem_entries_insert.2 (Or.inl rfl))

/-- Assigning one key leaves the others alone. -/
theorem find?_insert_of_ne (m : SortedMap κ ν) {k k' : κ} (v : ν) (h : k' ≠ k) :
    (m.insert k v).find? k' = m.find? k' := by
  apply Option.ext
  intro w
  rw [find?_eq_some_iff, find?_eq_some_iff, mem_entries_insert]
  constructor
  · rintro (he | ⟨he, -⟩)
    · exact absurd (congrArg Prod.fst he) h
    · exact he
  · exact fun he => Or.inr ⟨he, h⟩

theorem find?_insert (m : SortedMap κ ν) (k k' : κ) (v : ν) :
    (m.insert k v).find? k' = if k' = k then some v else m.find? k' := by
  split_ifs with h
  · rw [h, find?_insert_self]
  · exact find?_insert_of_ne m v h

/-- Inserting takes no key away. -/
theorem exists_find?_insert {m : SortedMap κ ν} {k' : κ} (h : ∃ w, m.find? k' = some w) (k : κ) (v : ν) :
    ∃ w, (m.insert k v).find? k' = some w := by
  rw [find?_insert]
  split_ifs
  · exact ⟨v, rfl⟩
  · exact h

@[simp] theorem find?_erase_self (m : SortedMap κ ν) (k : κ) : (m.erase k).find? k = none := by
  rw [find?_eq_none_iff]
  intro v hv
  exact (mem_entries_erase.1 hv).2 rfl

/-- Erasing one key leaves the others alone. -/
theorem find?_erase_of_ne (m : SortedMap κ ν) {k k' : κ} (h : k' ≠ k) : (m.erase k).find? k' = m.find? k' := by
  apply Option.ext
  intro w
  rw [find?_eq_some_iff, find?_eq_some_iff, mem_entries_erase]
  exact ⟨fun he => he.1, fun he => ⟨he, h⟩⟩

theorem find?_erase (m : SortedMap κ ν) (k k' : κ) :
    (m.erase k).find? k' = if k' = k then none else m.find? k' := by
  split_ifs with h
  · rw [h, find?_erase_self]
  · exact find?_erase_of_ne m h

/-- A filtered map finds what the map finds, if it satisfies the predicate. -/
theorem find?_filter (m : SortedMap κ ν) (p : κ × ν → Bool) (k : κ) :
    (m.filter p).find? k = (m.find? k).filter (fun v => p (k, v)) := by
  apply Option.ext
  intro v
  rw [find?_eq_some_iff, mem_entries_filter, Option.filter_eq_some_iff, find?_eq_some_iff]

/-- A filter that every entry passes changes nothing. -/
theorem filter_eq_self {m : SortedMap κ ν} {p : κ × ν → Bool} (h : ∀ e ∈ m.entries, p e = true) : m.filter p = m := by
  obtain ⟨entries, hsorted⟩ := m
  simp only [filter, List.filter_eq_self.2 h]

/-- Assigning a key of the map changes the value of its entry. -/
theorem entries_insert_of_find? {m : SortedMap κ ν} {k : κ} {w : ν} (h : m.find? k = some w) (v : ν) :
    (m.insert k v).entries = m.entries.map (fun e => if e.1 = k then (k, v) else e) := by
  obtain ⟨l, hl⟩ := m
  have hm := find?_eq_some_iff.1 h
  simp only [insert] at hm ⊢
  clear h
  induction l with
  | nil => exact absurd hm List.not_mem_nil
  | cons a l ih =>
    obtain ⟨ha, hl'⟩ := List.pairwise_cons.1 hl
    have hne : a.1 = k → ∀ e ∈ l, e.1 ≠ k := fun hk e he => ne_of_gt (hk ▸ ha e he)
    simp only [insertEntry, List.map_cons]
    split_ifs with h1 h2
    · exact absurd h2 (ne_of_gt h1)
    · rcases List.mem_cons.1 hm with rfl | hm
      · exact absurd h1 (lt_irrefl _)
      · exact absurd (lt_trans h1 (ha _ hm)) (lt_irrefl _)
    · rw [List.map_congr_left (g := id) (fun e he => by rw [if_neg (hne ‹_› e he)]; rfl), List.map_id]
    · rcases List.mem_cons.1 hm with rfl | hm
      · exact absurd rfl ‹_›
      · rw [ih hl' hm]

/-- Assigning a key the value that it has changes nothing. -/
theorem insert_eq_self {m : SortedMap κ ν} {k : κ} {v : ν} (h : m.find? k = some v) : m.insert k v = m := by
  have hentries : (m.insert k v).entries = m.entries := by
    rw [entries_insert_of_find? h]
    refine (List.map_congr_left (fun e he => ?_)).trans (List.map_id _)
    split_ifs with hk
    · obtain ⟨k', w⟩ := e
      obtain rfl : k' = k := hk
      rw [m.eq_of_mem (find?_eq_some_iff.1 h) he]
      rfl
    · rfl
  obtain ⟨l, hl⟩ := m
  cases hm : insert ⟨l, hl⟩ k v with
  | mk l' hl' =>
    rw [hm] at hentries
    obtain rfl : l' = l := hentries
    rfl

/-- Erasing a key of the map removes one entry. -/
theorem entries_perm_erase {m : SortedMap κ ν} {k : κ} {v : ν} (h : m.find? k = some v) :
    m.entries.Perm ((k, v) :: (m.erase k).entries) := by
  obtain ⟨l, hl⟩ := m
  have hm := find?_eq_some_iff.1 h
  simp only [erase, filter] at hm ⊢
  clear h
  induction l with
  | nil => exact absurd hm List.not_mem_nil
  | cons a l ih =>
    obtain ⟨ha, hl'⟩ := List.pairwise_cons.1 hl
    rcases List.mem_cons.1 hm with rfl | hm
    · have : l.filter (fun e => decide (e.1 ≠ k)) = l :=
        List.filter_eq_self.2 (fun e he => by simpa using ne_of_gt (ha e he))
      rw [List.filter_cons_of_neg (by simp), this]
    · have hne : a.1 ≠ k := ne_of_lt (ha _ hm)
      rw [List.filter_cons_of_pos (by simpa using hne)]
      exact ((ih hl' hm).cons a).trans (List.Perm.swap _ _ _)

theorem nodup_entries (m : SortedMap κ ν) : m.entries.Nodup := by
  refine List.Pairwise.imp ?_ m.sorted
  rintro a b h rfl
  exact lt_irrefl _ h

/-- After an assignment there is one entry for the key, next to those of the other keys. -/
theorem entries_insert_perm (m : SortedMap κ ν) (k : κ) (v : ν) :
    (m.insert k v).entries.Perm ((k, v) :: (m.erase k).entries) := by
  have herase : ((m.insert k v).erase k).entries.Perm (m.erase k).entries := by
    refine (List.perm_ext_iff_of_nodup (nodup_entries _) (nodup_entries _)).2 (fun e => ?_)
    rw [mem_entries_erase, mem_entries_erase, mem_entries_insert]
    constructor
    · rintro ⟨rfl | he, hk⟩
      · exact absurd rfl hk
      · exact he
    · exact fun he => ⟨Or.inr he, he.2⟩
  exact (entries_perm_erase (find?_insert_self m k v)).trans (herase.cons _)

/-- Erasing a key that the map does not have changes nothing. -/
theorem entries_erase_of_find? {m : SortedMap κ ν} {k : κ} (h : m.find? k = none) : (m.erase k).entries = m.entries :=
  List.filter_eq_self.2 (fun e he => by
    refine decide_eq_true (fun hk => find?_eq_none_iff.1 h e.2 ?_)
    rw [← hk]
    exact he)

/-! ## What the entries stand for -/

section Collect

variable {α : Type} (f : κ × ν → List α) (out : List κ) {m : SortedMap κ ν} {k : κ}

/-- What the entries stand for, but for those of the keys that are left out. -/
def collect (m : SortedMap κ ν) : List α := (m.entries.filter (fun e => e.1 ∉ out)).flatMap f

theorem mem_collect {a : α} : a ∈ m.collect f out ↔ ∃ k v, m.find? k = some v ∧ k ∉ out ∧ a ∈ f (k, v) := by
  rw [collect, List.mem_flatMap]
  constructor
  · rintro ⟨⟨k, v⟩, he, ha⟩
    obtain ⟨hmem, hout⟩ := List.mem_filter.1 he
    exact ⟨k, v, find?_eq_some_iff.2 hmem, of_decide_eq_true hout, ha⟩
  · rintro ⟨k, v, hf, hout, ha⟩
    exact ⟨(k, v), List.mem_filter.2 ⟨find?_eq_some_iff.1 hf, decide_eq_true hout⟩, ha⟩

theorem collect_of_perm {m' : SortedMap κ ν} {v : ν} [Decidable (k ∈ out)] (h : m.entries.Perm ((k, v) :: m'.entries)) :
    (m.collect f out).Perm ((if k ∈ out then [] else f (k, v)) ++ m'.collect f out) := by
  refine ((h.filter _).flatMap_right f).trans (List.Perm.of_eq ?_)
  by_cases hk : k ∈ out
  · rw [List.filter_cons_of_neg (by simpa using hk), if_pos hk]
    rfl
  · rw [List.filter_cons_of_pos (by simpa using hk), if_neg hk]
    rfl

/-- After an assignment the entry of the key stands for what its value does, next to the others. -/
theorem collect_insert (m : SortedMap κ ν) (k : κ) (v : ν) [Decidable (k ∈ out)] :
    ((m.insert k v).collect f out).Perm ((if k ∈ out then [] else f (k, v)) ++ (m.erase k).collect f out) :=
  collect_of_perm f out (entries_insert_perm m k v)

theorem collect_of_find? {v : ν} [Decidable (k ∈ out)] (h : m.find? k = some v) :
    (m.collect f out).Perm ((if k ∈ out then [] else f (k, v)) ++ (m.erase k).collect f out) :=
  collect_of_perm f out (entries_perm_erase h)

theorem collect_of_find?_eq_none (h : m.find? k = none) : (m.erase k).collect f out = m.collect f out := by
  rw [collect, entries_erase_of_find? h, collect]

/-- Maps whose values look the same to `f` stand for the same. -/
theorem collect_congr {β : Type} {m m' : SortedMap κ ν} {g : ν → β} (f : κ → β → List α)
    (h : ∀ k, (m.find? k).map g = (m'.find? k).map g) :
    (m.collect (fun e => f e.1 (g e.2)) out).Perm (m'.collect (fun e => f e.1 (g e.2)) out) := by
  -- the entries with what `f` sees of them
  have hview : ∀ m : SortedMap κ ν, m.collect (fun e => f e.1 (g e.2)) out =
      ((m.entries.map (fun e => (e.1, g e.2))).filter (fun e => e.1 ∉ out)).flatMap (fun e => f e.1 e.2) := by
    intro m
    rw [collect, List.filter_map, List.flatMap_map]
    rfl
  have hnodup : ∀ m : SortedMap κ ν, (m.entries.map (fun e => (e.1, g e.2))).Nodup := by
    intro m
    refine List.pairwise_map.2 (List.Pairwise.imp ?_ m.sorted)
    intro a b hab heq
    exact lt_irrefl _ ((congrArg Prod.fst heq) ▸ hab)
  have hmem : ∀ (m : SortedMap κ ν) (e : κ × β), e ∈ m.entries.map (fun e => (e.1, g e.2)) ↔ (m.find? e.1).map g = some e.2 := by
    intro m e
    rw [List.mem_map, Option.map_eq_some_iff]
    constructor
    · rintro ⟨⟨k, v⟩, hv, rfl⟩
      exact ⟨v, find?_eq_some_iff.2 hv, rfl⟩
    · rintro ⟨v, hv, hg⟩
      exact ⟨(e.1, v), find?_eq_some_iff.1 hv, Prod.ext rfl hg⟩
  have hperm : (m.entries.map (fun e => (e.1, g e.2))).Perm (m'.entries.map (fun e => (e.1, g e.2))) := by
    refine (List.perm_ext_iff_of_nodup (hnodup m) (hnodup m')).2 (fun e => ?_)
    rw [hmem, hmem, h]
  rw [hview, hview]
  exact (hperm.filter _).flatMap_right _

/-- To erase a key is to leave it out. -/
theorem collect_erase (m : SortedMap κ ν) (k : κ) : (m.erase k).collect f out = m.collect f (k :: out) := by
  rw [collect, collect, erase, filter, List.filter_filter]
  refine congrArg (List.flatMap f) (List.filter_congr (fun e _ => ?_))
  simp only [List.mem_cons, not_or, decide_not, Bool.decide_and]
  exact Bool.and_comm _ _

end Collect

/-- The iterator points into the map. -/
theorem mem_of_next {m : SortedMap κ ν} {after : Option κ} {e : κ × ν} (h : m.next after = some e) : e ∈ m.entries := by
  cases after with
  | none => exact List.mem_of_head? h
  | some a => exact List.mem_of_find?_eq_some h

/-- The iterator moves up. -/
theorem lt_of_next {m : SortedMap κ ν} {a : κ} {e : κ × ν} (h : m.next (some a) = some e) : a < e.1 := by
  simpa using List.find?_some h

/-- The iterator passes over no key. -/
theorem le_of_next {m : SortedMap κ ν} {after : Option κ} {e : κ × ν} (h : m.next after = some e) {k : κ} {v : ν}
    (hk : (k, v) ∈ m.entries) (ha : ∀ a, after = some a → a < k) : e.1 ≤ k := by
  have hsorted := m.sorted
  have hsplit : ∃ l l', m.entries = l ++ e :: l' ∧ ∀ x ∈ l, x ≠ (k, v) := by
    cases after with
    | none =>
      obtain ⟨l', hl'⟩ := List.head?_eq_some_iff.1 h
      exact ⟨[], l', hl', by simp⟩
    | some a =>
      obtain ⟨-, l, l', heq, hl⟩ := List.find?_eq_some_iff_append.1 h
      refine ⟨l, l', heq, ?_⟩
      rintro x hx rfl
      exact absurd (ha a rfl) (by simpa using hl _ hx)
  obtain ⟨l, l', heq, hl⟩ := hsplit
  rw [heq] at hk hsorted
  rcases List.mem_append.1 hk with hk | hk
  · exact absurd rfl (hl _ hk)
  · rcases List.mem_cons.1 hk with rfl | hk
    · exact le_refl _
    · exact le_of_lt ((List.pairwise_cons.1 (List.pairwise_append.1 hsorted).2.1).1 _ hk)

/-- The iterator ends behind the last key. -/
theorem not_mem_of_next {m : SortedMap κ ν} {after : Option κ} (h : m.next after = none) {k : κ} {v : ν}
    (ha : ∀ a, after = some a → a < k) : (k, v) ∉ m.entries := by
  intro hk
  cases after with
  | none =>
    rw [List.head?_eq_none_iff.1 h] at hk
    exact List.not_mem_nil hk
  | some a => exact absurd (ha a rfl) (by simpa using List.find?_eq_none.1 h _ hk)

end SortedMap
