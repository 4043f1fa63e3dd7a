import Mathlib.Data.List.Sort
import Mathlib.Data.List.Count

/-!
# The first elements by a measure

What it is to select from a list the `count` elements of smallest measure, in order, and when a selection from a part of a list
is one from the whole.
-/

namespace Selection

variable {α δ : Type} [LinearOrder δ]

/-- The list has the `count` elements of `l` whose measure is smallest, in strictly increasing order, or all of them if there are
fewer. -/
structure IsFirst (d : α → δ) (count : Nat) (l result : List α) : Prop where
  length : result.length = min count l.length
  sorted : result.Pairwise (fun a b => d a < d b)
  subset : result ⊆ l
  smallest : ∀ a ∈ result, ∀ b ∈ l, b ∉ result → d a < d b

variable {d : α → δ} {count : Nat} {l l' sorted rest : List α} {a b : α}

theorem IsFirst.perm (h : IsFirst d count l rest) (hl : l.Perm l') : IsFirst d count l' rest :=
  ⟨hl.length_eq ▸ h.length, h.sorted, fun _ ha => hl.subset (h.subset ha), fun a ha b hb => h.smallest a ha b (hl.symm.subset hb)⟩

/-- The beginning of a sorted list is a selection from it. -/
theorem isFirst_take (h : sorted.Pairwise (fun a b => d a < d b)) : IsFirst d count sorted (sorted.take count) where
  length := List.length_take
  sorted := h.sublist (List.take_sublist _ _)
  subset := List.take_subset _ _
  smallest a ha b hb hnot := by
    rw [← List.take_append_drop count sorted] at hb h
    have hb : b ∈ sorted.drop count := (List.mem_append.1 hb).resolve_left hnot
    exact (List.pairwise_append.1 h).2.2 a ha b hb

/-- In a sorted list an element has fewer elements below any bound that it is not below, than elements come before it and
itself. -/
theorem countP_lt_of_mem_take (h : sorted.Pairwise (fun a b => d a < d b)) (ha : a ∈ sorted.take count) {x : δ} (hx : x ≤ d a) :
    sorted.countP (fun b => decide (d b < x)) < count := by
  obtain ⟨l₁, l₂, hl⟩ := List.append_of_mem ha
  have hlen : l₁.length < count := by
    have := congrArg List.length hl
    simp only [List.length_take, List.length_append, List.length_cons] at this
    omega
  have hsplit : sorted = l₁ ++ (a :: l₂ ++ sorted.drop count) := by
    rw [← List.append_assoc, ← hl, List.take_append_drop]
  have hafter : (a :: l₂ ++ sorted.drop count).countP (fun b => decide (d b < x)) = 0 := by
    refine List.countP_eq_zero.2 (fun b hb => ?_)
    have hle : d a ≤ d b := by
      rw [hsplit] at h
      rcases List.mem_cons.1 hb with rfl | hb
      · exact le_refl _
      · exact le_of_lt ((List.pairwise_cons.1 (List.pairwise_append.1 h).2.1).1 b hb)
    simpa using le_trans hx hle
  rw [hsplit, List.countP_append, hafter]
  exact lt_of_le_of_lt List.countP_le_length hlen

/-- A selection from a part of a list is one from the whole list exactly when no element of the rest would be selected: each
has `count` elements of the part below it. -/
theorem isFirst_append_iff (h : sorted.Pairwise (fun a b => d a < d b)) (hdisj : ∀ b ∈ rest, b ∉ sorted) :
    IsFirst d count (sorted ++ rest) (sorted.take count) ↔
      ∀ b ∈ rest, count ≤ sorted.countP (fun a => decide (d a < d b)) := by
  have htake : IsFirst d count sorted (sorted.take count) := isFirst_take h
  constructor
  · intro hfirst b hb
    have hbelow : ∀ a ∈ sorted.take count, d a < d b := fun a ha =>
      hfirst.smallest a ha b (List.mem_append_right _ hb) (fun hmem => hdisj b hb (htake.subset hmem))
    have hlen := hfirst.length
    have hpos : 0 < rest.length := List.length_pos_of_mem hb
    simp only [List.length_append, List.length_take] at hlen
    have hall : (sorted.take count).countP (fun a => decide (d a < d b)) = (sorted.take count).length :=
      List.countP_eq_length.2 (fun a ha => decide_eq_true (hbelow a ha))
    have hle := (List.take_sublist count sorted).countP_le (p := fun a => decide (d a < d b))
    rw [hall, List.length_take] at hle
    omega
  · intro hcond
    refine ⟨?_, htake.sorted, fun a ha => List.mem_append_left _ (htake.subset ha), fun a ha b hb hnot => ?_⟩
    · rw [List.length_take, List.length_append]
      cases rest with
      | nil => rfl
      | cons b rest =>
        have hle := (hcond b List.mem_cons_self).trans List.countP_le_length
        omega
    · rcases List.mem_append.1 hb with hb | hb
      · exact htake.smallest a ha b hb hnot
      · by_contra hlt
        have := countP_lt_of_mem_take h ha (not_lt.1 hlt)
        exact absurd (hcond b hb) (not_le.2 this)

end Selection
