import Mathlib.Data.List.Count
import Mathlib.Data.List.Dedup
import Mathlib.Data.List.Induction
import Mathlib.Data.List.Nodup
import Mathlib.Logic.Function.Basic
import Mathlib.Order.Lattice

/-!
# Bounded lists in order of use

A list whose elements have keys, the last used one at its end. Using an element whose key is in the list drops the first element
of that key and appends the new one; an element with another key is appended while there is room. Using a sequence of elements
twice is the same as using it once, when no key occurs in the list more often than in the sequence (`uses_uses`). From nothing
on, a sequence leaves the last element of each of its first keys (`foldl_use_nil`).
-/

namespace Recency

variable {α κ : Type} [DecidableEq κ]

/-- The number of elements with a key. -/
def count (key : α → κ) (k : κ) (l : List α) : Nat := l.countP (fun y => decide (key y = k))

/-- Drop the first element of the same key, if there is one, and append the element. -/
def renew (key : α → κ) (l : List α) (x : α) : List α := l.eraseP (fun y => decide (key y = key x)) ++ [x]

/-- Use an element. -/
def use (key : α → κ) (room : Nat) (l : List α) (x : α) : List α :=
  if l.any (fun y => decide (key y = key x)) then renew key l x else if l.length < room then l ++ [x] else l

/-- The elements of a sequence whose keys are in a list. -/
def kept (key : α → κ) (r s : List α) : List α := s.filter (fun x => decide (key x ∈ r.map key))

/-- The first `n` of the distinct keys of a sequence, in the order of their first elements. -/
def firstKeys (key : α → κ) (n : Nat) (s : List α) : List κ := ((s.map key).reverse.dedup.reverse).take n

/-- The last elements of each key, as many as `f` says. -/
def lasts (key : α → κ) (f : κ → Nat) : List α → List α
  | [] => []
  | x :: l => if count key (key x) l < f (key x) then x :: lasts key f l else lasts key f l

variable {key : α → κ} {room : Nat} {f g : κ → Nat} {k : κ} {l u s : List α} {x : α}

@[simp] theorem count_nil : count key k [] = 0 := rfl

@[simp] theorem count_append : count key k (l ++ u) = count key k l + count key k u := List.countP_append

theorem count_cons : count key k (x :: l) = count key k l + if key x = k then 1 else 0 := by
  simp [count, List.countP_cons]

theorem count_eq_zero : count key k l = 0 ↔ ∀ y ∈ l, key y ≠ k := by
  simp [count, List.countP_eq_zero]

theorem count_pos_iff : 0 < count key k l ↔ k ∈ l.map key := by
  simp [count, List.countP_pos_iff]

/-! ## The last elements of each key -/

theorem lasts_congr (h : ∀ y ∈ l, f (key y) = g (key y)) : lasts key f l = lasts key g l := by
  induction l with
  | nil => rfl
  | cons x l ih =>
    rw [lasts, lasts, h x List.mem_cons_self, ih (fun y hy => h y (List.mem_cons_of_mem _ hy))]

/-- The bounds do not matter that are at least as large as the number of elements. -/
theorem lasts_congr_of_le (h : ∀ k, f k = g k ∨ count key k l ≤ f k ∧ count key k l ≤ g k) : lasts key f l = lasts key g l := by
  induction l with
  | nil => rfl
  | cons x l ih =>
    have htail : lasts key f l = lasts key g l := by
      refine ih (fun k => ?_)
      have hk := h k
      rw [count_cons] at hk
      omega
    have hx : count key (key x) l < f (key x) ↔ count key (key x) l < g (key x) := by
      have hk := h (key x)
      rw [count_cons, if_pos rfl] at hk
      omega
    rw [lasts, lasts, htail]
    simp only [hx]

theorem lasts_eq_self (h : ∀ k, count key k l ≤ f k) : lasts key f l = l := by
  induction l with
  | nil => rfl
  | cons x l ih =>
    have hx := h (key x)
    rw [count_cons, if_pos rfl] at hx
    have htail : lasts key f l = l := by
      refine ih (fun k => ?_)
      have hk := h k
      rw [count_cons] at hk
      omega
    rw [lasts, if_pos (by omega), htail]

theorem lasts_append_singleton (hx : 0 < f (key x)) :
    lasts key f (l ++ [x]) = lasts key (Function.update f (key x) (f (key x) - 1)) l ++ [x] := by
  induction l with
  | nil => simp [lasts, hx]
  | cons y l ih =>
    rw [List.cons_append, lasts, lasts, ih, count_append]
    by_cases hy : key y = key x
    · have hcount : count key (key y) [x] = 1 := by simp [count, hy]
      have hiff : count key (key y) l + count key (key y) [x] < f (key y) ↔
          count key (key y) l < Function.update f (key x) (f (key x) - 1) (key y) := by
        rw [hcount, hy, Function.update_self]
        omega
      simp only [hiff]
      split_ifs <;> rfl
    · have hcount : count key (key y) [x] = 0 := by simp [count, Ne.symm hy]
      rw [hcount, Function.update_of_ne hy, Nat.add_zero]
      split_ifs <;> rfl

/-- To keep one element of a key less is to drop the first one that is kept. -/
theorem lasts_update_pred (hk : f k ≤ count key k l) (hpos : 0 < f k) :
    lasts key (Function.update f k (f k - 1)) l = (lasts key f l).eraseP (fun y => decide (key y = k)) := by
  induction l with
  | nil =>
    rw [count_nil] at hk
    omega
  | cons y l ih =>
    rw [count_cons] at hk
    by_cases hy : key y = k
    · subst hy
      rw [if_pos rfl] at hk
      rw [lasts, lasts, Function.update_self]
      by_cases hlast : count key (key y) l < f (key y)
      · rw [if_pos hlast, if_neg (by omega), List.eraseP_cons_of_pos (by simp)]
        refine lasts_congr_of_le (fun k => ?_)
        by_cases hky : k = key y
        · subst hky
          rw [Function.update_self]
          omega
        · exact Or.inl (Function.update_of_ne hky _ _)
      · rw [if_neg hlast, if_neg (by omega)]
        exact ih (by omega)
    · rw [if_neg hy, Nat.add_zero] at hk
      rw [lasts, lasts, Function.update_of_ne hy, ih hk]
      split_ifs
      · rw [List.eraseP_cons_of_neg (by simpa using hy)]
      · rfl

/-- Where the second list has enough elements of the keys that it has, the first one only keeps those of other keys. -/
theorem lasts_append (hin : ∀ y ∈ l, key y ∈ u.map key → f (key y) ≤ count key (key y) u)
    (hout : ∀ y ∈ l, key y ∉ u.map key → count key (key y) l ≤ f (key y)) :
    lasts key f (l ++ u) = l.filter (fun y => decide (key y ∉ u.map key)) ++ lasts key f u := by
  induction l with
  | nil => rfl
  | cons y l ih =>
    have htail := ih (fun z hz => hin z (List.mem_cons_of_mem _ hz)) (fun z hz hzu => by
      have hle := hout z (List.mem_cons_of_mem _ hz) hzu
      rw [count_cons] at hle
      omega)
    rw [List.cons_append, lasts, htail, count_append]
    by_cases hy : key y ∈ u.map key
    · have hle := hin y List.mem_cons_self hy
      rw [if_neg (by omega), List.filter_cons_of_neg (by simpa using hy)]
    · have hle := hout y List.mem_cons_self hy
      rw [count_cons, if_pos rfl] at hle
      have hu : count key (key y) u = 0 := count_eq_zero.2 (fun z hz hzy => hy (hzy ▸ List.mem_map_of_mem hz))
      rw [if_pos (by omega), List.filter_cons_of_pos (by simpa using hy)]
      rfl

theorem exists_lasts_append (key : α → κ) (f : κ → Nat) (l u : List α) :
    ∃ l', l'.Sublist l ∧ lasts key f (l ++ u) = l' ++ lasts key f u := by
  induction l with
  | nil => exact ⟨[], List.Sublist.refl _, rfl⟩
  | cons y l ih =>
    obtain ⟨l', hsub, heq⟩ := ih
    rw [List.cons_append, lasts, heq]
    split_ifs
    · exact ⟨y :: l', hsub.cons_cons y, rfl⟩
    · exact ⟨l', hsub.cons y, rfl⟩

theorem count_lasts : count key k (lasts key f l) = min (f k) (count key k l) := by
  induction l with
  | nil => simp [lasts]
  | cons y l ih =>
    rw [lasts, count_cons]
    by_cases hy : key y = k
    · subst hy
      rw [if_pos rfl]
      split_ifs
      · rw [count_cons, if_pos rfl, ih]
        omega
      · rw [ih]
        omega
    · rw [if_neg hy, Nat.add_zero]
      split_ifs
      · rw [count_cons, if_neg hy, ih, Nat.add_zero]
      · exact ih

theorem lasts_sublist : (lasts key f l).Sublist l := by
  induction l with
  | nil => exact List.Sublist.refl _
  | cons y l ih =>
    rw [lasts]
    split_ifs
    · exact ih.cons_cons y
    · exact ih.cons y

/-! ## Renewing elements -/

/-- The number of elements of each key after a sequence of elements was renewed. -/
def copies (key : α → κ) (l s : List α) (k : κ) : Nat := if k ∈ s.map key then max (count key k l) 1 else count key k l

/-- To renew a sequence of elements is to append it and to keep the last elements of each key. -/
theorem foldl_renew : s.foldl (renew key) l = lasts key (copies key l s) (l ++ s) := by
  induction s using List.reverseRecOn with
  | nil =>
    rw [List.foldl_nil, List.append_nil, lasts_eq_self]
    intro k
    simp [copies]
  | append_singleton s x ih =>
    have hx : copies key l (s ++ [x]) (key x) = max (count key (key x) l) 1 := if_pos (by simp)
    rw [List.foldl_append, List.foldl_cons, List.foldl_nil, ih, ← List.append_assoc, lasts_append_singleton (by omega), renew]
    congr 1
    have hother : ∀ k ≠ key x, copies key l (s ++ [x]) k = copies key l s k := by
      intro k hk
      simp [copies, hk]
    by_cases hfirst : copies key l s (key x) = max (count key (key x) l) 1
    · have hsame : copies key l (s ++ [x]) = copies key l s := by
        funext k
        by_cases hk : k = key x
        · rw [hk, hx, hfirst]
        · exact hother k hk
      have hle : copies key l s (key x) ≤ count key (key x) (l ++ s) := by
        rw [count_append]
        unfold copies
        split_ifs with hmem
        · obtain ⟨y, hy, hyx⟩ := List.mem_map.1 hmem
          have hpos : 0 < count key (key x) s := List.countP_pos_iff.2 ⟨y, hy, decide_eq_true hyx⟩
          omega
        · omega
      rw [hsame, lasts_update_pred hle (by omega)]
    · have hnone : key x ∉ s.map key ∧ count key (key x) l = 0 := by
        unfold copies at hfirst
        split_ifs at hfirst with hmem
        · exact absurd rfl hfirst
        · exact ⟨hmem, by omega⟩
      have hout : count key (key x) s = 0 := by
        refine count_eq_zero.2 (fun y hy hyx => hnone.1 ?_)
        rw [← hyx]
        exact List.mem_map_of_mem hy
      have hcount : count key (key x) (l ++ s) = 0 := by
        rw [count_append, hnone.2, hout]
      rw [List.eraseP_of_forall_not (fun y hy => by
        simpa using count_eq_zero.1 hcount y (lasts_sublist.subset hy))]
      refine lasts_congr_of_le (fun k => ?_)
      by_cases hk : k = key x
      · right
        rw [hk, hcount]
        omega
      · left
        rw [Function.update_of_ne hk, hother k hk]

/-- Where no key occurs in the list more often than in the sequence, only elements of other keys are left of the list. -/
theorem foldl_renew_eq (h : ∀ x ∈ s, count key (key x) l ≤ count key (key x) s) :
    s.foldl (renew key) l = l.filter (fun y => decide (key y ∉ s.map key)) ++ lasts key (copies key l s) s := by
  rw [foldl_renew]
  refine lasts_append (fun y hy hys => ?_) (fun y hy hys => ?_)
  · obtain ⟨x, hx, hxy⟩ := List.mem_map.1 hys
    have hpos : 0 < count key (key y) s := List.countP_pos_iff.2 ⟨x, hx, decide_eq_true hxy⟩
    have hle := h x hx
    rw [hxy] at hle
    rw [copies, if_pos hys]
    omega
  · rw [copies, if_neg hys]

theorem renew_renew (h : ∀ x ∈ s, count key (key x) l ≤ count key (key x) s) :
    s.foldl (renew key) (s.foldl (renew key) l) = s.foldl (renew key) l := by
  have honce := foldl_renew_eq h
  have hcount : ∀ x ∈ s, count key (key x) (s.foldl (renew key) l) = max (count key (key x) l) 1 := by
    intro x hx
    have hmem : key x ∈ s.map key := List.mem_map_of_mem hx
    have hpos : 0 < count key (key x) s := List.countP_pos_iff.2 ⟨x, hx, decide_eq_true rfl⟩
    have hle := h x hx
    have hzero : count key (key x) (l.filter (fun y => decide (key y ∉ s.map key))) = 0 := by
      refine count_eq_zero.2 (fun y hy hyx => ?_)
      have hout := of_decide_eq_true (List.mem_filter.1 hy).2
      exact hout (hyx ▸ hmem)
    rw [honce, count_append, hzero, count_lasts, copies, if_pos hmem]
    omega
  have hle : ∀ x ∈ s, count key (key x) (s.foldl (renew key) l) ≤ count key (key x) s := by
    intro x hx
    have hpos : 0 < count key (key x) s := List.countP_pos_iff.2 ⟨x, hx, decide_eq_true rfl⟩
    have := h x hx
    rw [hcount x hx]
    omega
  have hsame : lasts key (copies key (s.foldl (renew key) l) s) s = lasts key (copies key l s) s := by
    refine lasts_congr (fun x hx => ?_)
    have hmem : key x ∈ s.map key := List.mem_map_of_mem hx
    rw [copies, copies, if_pos hmem, if_pos hmem, hcount x hx]
    omega
  have hgone : (lasts key (copies key l s) s).filter (fun y => decide (key y ∉ s.map key)) = [] :=
    List.filter_eq_nil_iff.2 (fun y hy => by simpa using List.mem_map_of_mem (lasts_sublist.subset hy))
  rw [foldl_renew_eq hle, hsame, honce, List.filter_append, hgone, List.append_nil, List.filter_filter]
  simp only [Bool.and_self]

/-! ## Renewing what is up to date -/

/-- The sequence repeats the end of the list: it has keys of the list only, and of the list followed by the sequence the last
elements of each key, as many as the list has, are the list. -/
def Current (key : α → κ) (l s : List α) : Prop :=
  (∀ x ∈ s, key x ∈ l.map key) ∧ lasts key (fun k => count key k l) (l ++ s) = l

instance [DecidableEq α] (key : α → κ) (l s : List α) : Decidable (Current key l s) := inferInstanceAs (Decidable (_ ∧ _))

theorem mem_keys_renew (h : k ∈ l.map key) : k ∈ (renew key l x).map key := by
  obtain ⟨y, hy, rfl⟩ := List.mem_map.1 h
  unfold renew
  rw [List.map_append, List.mem_append, List.map_singleton, List.mem_singleton]
  by_cases hyx : key y = key x
  · exact Or.inr hyx
  · exact Or.inl (List.mem_map_of_mem ((List.mem_eraseP_of_neg (by simpa using hyx)).2 hy))

theorem length_renew (h : key x ∈ l.map key) : (renew key l x).length = l.length := by
  obtain ⟨y, hy, hyx⟩ := List.mem_map.1 h
  have hlen : (l.eraseP (fun z => decide (key z = key x))).length = l.length - 1 :=
    List.length_eraseP_of_mem hy (decide_eq_true hyx)
  have hpos := List.length_pos_of_mem hy
  rw [renew, List.length_append, List.length_singleton, hlen]
  omega

theorem mem_keys_renew_iff (h : key x ∈ l.map key) : k ∈ (renew key l x).map key ↔ k ∈ l.map key := by
  refine ⟨fun hk => ?_, mem_keys_renew⟩
  unfold renew at hk
  rw [List.map_append, List.mem_append, List.map_singleton, List.mem_singleton] at hk
  rcases hk with hk | rfl
  · exact (List.eraseP_sublist.map key).subset hk
  · exact h

/-- To renew elements whose keys are in the list changes neither its length nor its keys. -/
theorem foldl_renew_keys (h : ∀ x ∈ s, key x ∈ l.map key) :
    (s.foldl (renew key) l).length = l.length ∧ ∀ k, k ∈ (s.foldl (renew key) l).map key ↔ k ∈ l.map key := by
  induction s generalizing l with
  | nil => exact ⟨rfl, fun _ => Iff.rfl⟩
  | cons x s ih =>
    have hx := h x List.mem_cons_self
    obtain ⟨hlen, hkeys⟩ := ih (l := renew key l x) (fun y hy =>
      (mem_keys_renew_iff hx).2 (h y (List.mem_cons_of_mem _ hy)))
    exact ⟨hlen.trans (length_renew hx), fun k => (hkeys k).trans (mem_keys_renew_iff hx)⟩

/-- To renew elements whose keys are in the list leaves it as it is when they repeat its end, and only then. -/
theorem foldl_renew_eq_self_iff (h : ∀ x ∈ s, key x ∈ l.map key) : s.foldl (renew key) l = l ↔ Current key l s := by
  have hcopies : copies key l s = fun k => count key k l := by
    funext k
    unfold copies
    split_ifs with hk
    · obtain ⟨x, hx, rfl⟩ := List.mem_map.1 hk
      obtain ⟨y, hy, hyx⟩ := List.mem_map.1 (h x hx)
      have hpos : 0 < count key (key x) l := List.countP_pos_iff.2 ⟨y, hy, decide_eq_true hyx⟩
      omega
    · rfl
  rw [foldl_renew, hcopies]
  exact ⟨fun heq => ⟨h, heq⟩, fun hcurrent => hcurrent.2⟩

/-- In a list with distinct keys, the last elements of the sequence of each key are the end of the list. -/
theorem current_iff_of_nodup (hl : (l.map key).Nodup) :
    Current key l s ↔ (∀ x ∈ s, key x ∈ l.map key) ∧ lasts key (fun _ => 1) s <:+ l := by
  have hone : ∀ k ∈ l.map key, count key k l = 1 := by
    intro k hk
    have hcount : count key k l = (l.map key).count k := by
      rw [count, List.count, List.countP_map]
      exact List.countP_congr (fun y _ => by simp)
    rw [hcount, List.count_eq_one_of_mem hl hk]
  refine and_congr_right (fun hs => ?_)
  have hlasts : lasts key (fun k => count key k l) s = lasts key (fun _ => 1) s :=
    lasts_congr (fun x hx => hone _ (hs x hx))
  constructor
  · intro h
    obtain ⟨l', -, heq⟩ := exists_lasts_append key (fun k => count key k l) l s
    rw [h, hlasts] at heq
    exact ⟨l', heq.symm⟩
  · rintro ⟨l₁, rfl⟩
    have hkeys : ∀ k, k ∈ (lasts key (fun _ => 1) s).map key ↔ k ∈ s.map key := by
      intro k
      rw [← count_pos_iff, ← count_pos_iff, count_lasts]
      omega
    have hold : l₁.filter (fun y => decide (key y ∉ s.map key)) = l₁ := by
      refine List.filter_eq_self.2 (fun y hy => decide_eq_true (fun hys => ?_))
      rw [List.map_append] at hl
      exact (List.nodup_append.1 hl).2.2 _ (List.mem_map_of_mem hy) _ ((hkeys _).2 hys) rfl
    have hgone : (lasts key (fun _ => 1) s).filter (fun y => decide (key y ∉ s.map key)) = [] :=
      List.filter_eq_nil_iff.2 (fun y hy => by simpa using (hkeys _).1 (List.mem_map_of_mem hy))
    have hcopies : lasts key (copies key (l₁ ++ lasts key (fun _ => 1) s) s) s = lasts key (fun _ => 1) s := by
      refine lasts_congr (fun x hx => ?_)
      rw [copies, if_pos (List.mem_map_of_mem hx), hone _ (hs x hx)]
      rfl
    refine ((foldl_renew_eq_self_iff hs).1 ?_).2
    rw [foldl_renew_eq, List.filter_append, hold, hgone, List.append_nil, hcopies]
    intro x hx
    rw [hone _ (hs x hx)]
    exact count_pos_iff.2 (List.mem_map_of_mem hx)

/-! ## Using elements -/

theorem kept_cons_of_mem {r : List α} (h : key x ∈ r.map key) : kept key r (x :: s) = x :: kept key r s :=
  List.filter_cons_of_pos (decide_eq_true h)

theorem kept_cons_of_not_mem {r : List α} (h : key x ∉ r.map key) : kept key r (x :: s) = kept key r s :=
  List.filter_cons_of_neg (by simpa using h)

theorem count_kept {r : List α} (h : k ∈ r.map key) : count key k (kept key r s) = count key k s := by
  unfold count kept
  rw [List.countP_filter]
  refine List.countP_congr (fun y _ => ?_)
  by_cases hy : key y = k
  · simp only [hy, h, decide_true, Bool.and_true]
  · simp [hy]

theorem length_le_renew : l.length ≤ (renew key l x).length := by
  unfold renew
  rw [List.length_append, List.length_singleton, List.length_eraseP]
  split_ifs <;> omega

theorem mem_map_iff_any : l.any (fun y => decide (key y = k)) = true ↔ k ∈ l.map key := by
  simp

/-- An element is used as if it were renewed, unless the list is full and has no element of its key. -/
theorem use_cases (key : α → κ) (room : Nat) (l : List α) (x : α) :
    (use key room l x = renew key l x ∧ key x ∈ (use key room l x).map key) ∨
    use key room l x = l ∧ room ≤ l.length ∧ key x ∉ l.map key := by
  have hnew : key x ∈ (renew key l x).map key := by simp [renew]
  unfold use
  by_cases hmem : key x ∈ l.map key
  · rw [if_pos (mem_map_iff_any.2 hmem)]
    exact Or.inl ⟨rfl, hnew⟩
  · rw [if_neg (fun h => hmem (mem_map_iff_any.1 h))]
    have hrenew : renew key l x = l ++ [x] := by
      unfold renew
      rw [List.eraseP_of_forall_not]
      intro y hy hyx
      exact hmem (of_decide_eq_true hyx ▸ List.mem_map_of_mem hy)
    split_ifs with hroom
    · exact Or.inl ⟨hrenew.symm, hrenew ▸ hnew⟩
    · exact Or.inr ⟨rfl, Nat.le_of_not_lt hroom, hmem⟩

theorem mem_keys_use (h : k ∈ l.map key) : k ∈ (use key room l x).map key := by
  rcases use_cases key room l x with ⟨heq, -⟩ | ⟨heq, -⟩
  · rw [heq]
    exact mem_keys_renew h
  · rw [heq]
    exact h

theorem mem_keys_foldl_use (h : k ∈ l.map key) : k ∈ (s.foldl (use key room) l).map key := by
  induction s generalizing l with
  | nil => exact h
  | cons x s ih => exact ih (mem_keys_use h)

/-- A full list stays full, and gets no new keys. -/
theorem use_of_full (hfull : room ≤ l.length) (hk : k ∉ l.map key) :
    room ≤ (use key room l x).length ∧ k ∉ (use key room l x).map key := by
  unfold use
  split_ifs with hany hroom
  · refine ⟨le_trans hfull length_le_renew, fun h => ?_⟩
    unfold renew at h
    rw [List.map_append, List.mem_append, List.map_singleton, List.mem_singleton] at h
    rcases h with h | rfl
    · exact hk ((List.eraseP_sublist.map key).subset h)
    · exact hk (mem_map_iff_any.1 hany)
  · exact absurd hroom (Nat.not_lt_of_le hfull)
  · exact ⟨hfull, hk⟩

theorem foldl_use_of_full (hfull : room ≤ l.length) (hk : k ∉ l.map key) :
    room ≤ (s.foldl (use key room) l).length ∧ k ∉ (s.foldl (use key room) l).map key := by
  induction s generalizing l with
  | nil => exact ⟨hfull, hk⟩
  | cons x s ih =>
    obtain ⟨hfull', hk'⟩ := use_of_full (x := x) hfull hk
    exact ih hfull' hk'

/-- To use a sequence of elements is to renew those whose keys end up in the list. -/
theorem foldl_use_eq {r : List α} (h : ∀ x ∈ s, key x ∈ r.map key ↔ key x ∈ (s.foldl (use key room) l).map key) :
    s.foldl (use key room) l = (kept key r s).foldl (renew key) l := by
  induction s generalizing l with
  | nil => rfl
  | cons x s ih =>
    have hrest := ih (l := use key room l x) (fun y hy => h y (List.mem_cons_of_mem _ hy))
    have hx := h x List.mem_cons_self
    rw [List.foldl_cons] at hx ⊢
    rcases use_cases key room l x with ⟨heq, hmem⟩ | ⟨heq, hfull, hnone⟩
    · rw [kept_cons_of_mem (hx.2 (mem_keys_foldl_use hmem)), List.foldl_cons, ← heq]
      exact hrest
    · have hout : key x ∉ (s.foldl (use key room) (use key room l x)).map key := by
        rw [heq]
        exact (foldl_use_of_full hfull hnone).2
      rw [kept_cons_of_not_mem (fun hmem => hout (hx.1 hmem))]
      rw [heq] at hrest ⊢
      exact hrest

/-- An element of the sequence whose key is not in the list in the end found the list full. -/
theorem full_of_not_mem (hx : x ∈ s) (h : key x ∉ (s.foldl (use key room) l).map key) :
    room ≤ (s.foldl (use key room) l).length := by
  induction s generalizing l with
  | nil => cases hx
  | cons y s ih =>
    rcases List.mem_cons.1 hx with rfl | hx
    · rw [List.foldl_cons] at h ⊢
      rcases use_cases key room l x with ⟨-, hmem⟩ | ⟨heq, hfull, hnone⟩
      · exact absurd (mem_keys_foldl_use hmem) h
      · rw [heq]
        exact (foldl_use_of_full hfull hnone).1
    · exact ih hx h

/-- To use a sequence of elements twice is to use it once. -/
theorem uses_uses (h : ∀ x ∈ s, count key (key x) l ≤ count key (key x) s) :
    s.foldl (use key room) (s.foldl (use key room) l) = s.foldl (use key room) l := by
  obtain ⟨r, hr⟩ : ∃ r, r = s.foldl (use key room) l := ⟨_, rfl⟩
  have honce : s.foldl (use key room) l = (kept key r s).foldl (renew key) l :=
    foldl_use_eq (fun x _ => by rw [hr])
  have htwice : s.foldl (use key room) r = (kept key r s).foldl (renew key) r := by
    refine foldl_use_eq (fun x hx => ⟨mem_keys_foldl_use, fun hmem => ?_⟩)
    by_contra hnone
    have hfull : room ≤ r.length := hr ▸ full_of_not_mem hx (hr ▸ hnone)
    exact (foldl_use_of_full hfull hnone).2 hmem
  have hcount : ∀ x ∈ kept key r s, count key (key x) l ≤ count key (key x) (kept key r s) := by
    intro x hx
    obtain ⟨hx, hmem⟩ := List.mem_filter.1 hx
    rw [count_kept (of_decide_eq_true hmem)]
    exact h x hx
  have hrenew : r = (kept key r s).foldl (renew key) l := hr.trans honce
  rw [← hr]
  calc s.foldl (use key room) r
      = (kept key r s).foldl (renew key) r := htwice
    _ = (kept key r s).foldl (renew key) ((kept key r s).foldl (renew key) l) :=
        congrArg (fun t => (kept key r s).foldl (renew key) t) hrenew
    _ = (kept key r s).foldl (renew key) l := renew_renew hcount
    _ = r := hrenew.symm

/-- The condition is exact where the elements of the sequence can be told from those of the list: if using them twice is using
them once, no key of theirs occurs in the list more often than in the sequence. -/
theorem count_le_of_uses_uses {q : α → Bool} (hx : x ∈ s) (hs : ∀ y ∈ s, q y = true)
    (hl : ∀ y ∈ l, key y = key x → q y = false)
    (h : s.foldl (use key room) (s.foldl (use key room) l) = s.foldl (use key room) l) :
    count key (key x) l ≤ count key (key x) s := by
  by_contra hlt
  obtain ⟨r, hr⟩ : ∃ r, r = s.foldl (use key room) l := ⟨_, rfl⟩
  rw [← hr] at h
  have hpos : 0 < count key (key x) s := List.countP_pos_iff.2 ⟨x, hx, decide_eq_true rfl⟩
  have honce : r = (kept key r s).foldl (renew key) l := hr.trans (foldl_use_eq (fun x _ => by rw [hr]))
  have htwice : r = (kept key r s ++ kept key r s).foldl (renew key) l := by
    rw [List.foldl_append, ← honce]
    exact h.symm.trans (foldl_use_eq (fun x _ => by rw [h]))
  have hmem : key x ∈ r.map key := by
    rw [hr]
    refine mem_keys_foldl_use ?_
    by_contra hnone
    have hzero : count key (key x) l = 0 :=
      count_eq_zero.2 (fun y hy hyx => hnone (List.mem_map.2 ⟨y, hy, hyx⟩))
    omega
  have hkept : count key (key x) (kept key r s) = count key (key x) s := count_kept hmem
  -- how many elements of the key are from the sequence, when it was used once and when it was used twice
  have hnew : ∀ t : List α, (∀ y ∈ t, q y = true) → 0 < count key (key x) t → r = t.foldl (renew key) l →
      r.countP (fun y => decide (key y = key x) && q y) = min (count key (key x) l) (count key (key x) t) := by
    intro t ht htpos hrt
    obtain ⟨l', hsub, heq⟩ := exists_lasts_append key (copies key l t) l t
    have hnone : l'.countP (fun y => decide (key y = key x) && q y) = 0 := by
      refine List.countP_eq_zero.2 (fun y hy => ?_)
      by_cases hyx : key y = key x
      · simp [hl y (hsub.subset hy) hyx]
      · simp [hyx]
    have hall : (lasts key (copies key l t) t).countP (fun y => decide (key y = key x) && q y) =
        count key (key x) (lasts key (copies key l t) t) :=
      List.countP_congr (fun y hy => by simp [ht y (lasts_sublist.subset hy)])
    obtain ⟨y, hy, hyx⟩ := List.countP_pos_iff.1 htpos
    have hcopies : copies key l t (key x) = max (count key (key x) l) 1 :=
      if_pos (List.mem_map.2 ⟨y, hy, of_decide_eq_true hyx⟩)
    rw [hrt, foldl_renew, heq, List.countP_append, hnone, hall, count_lasts, hcopies]
    omega
  have hsub : ∀ y ∈ kept key r s, q y = true := fun y hy => hs y (List.mem_filter.1 hy).1
  have hcount₁ := hnew _ hsub (by omega) honce
  have hcount₂ := hnew (kept key r s ++ kept key r s)
    (fun y hy => (List.mem_append.1 hy).elim (hsub y) (hsub y)) (by rw [count_append]; omega) htwice
  rw [count_append] at hcount₂
  omega

/-! ## A list that starts empty -/

/-- One more element adds its key if the sequence does not have it, and there is room for it. -/
theorem firstKeys_append_singleton (key : α → κ) (room : Nat) (s : List α) (x : α) :
    firstKeys key room (s ++ [x]) = if key x ∈ s.map key then firstKeys key room s else
      firstKeys key room s ++ if (firstKeys key room s).length < room then [key x] else [] := by
  unfold firstKeys
  rw [List.map_append, List.map_singleton, List.reverse_append, List.reverse_singleton, List.singleton_append]
  split_ifs with hmem hroom
  · rw [List.dedup_cons_of_mem (List.mem_reverse.2 hmem)]
  · rw [List.dedup_cons_of_notMem (fun h => hmem (List.mem_reverse.1 h)), List.reverse_cons]
    rw [List.length_take] at hroom
    rw [List.take_of_length_le (by rw [List.length_append, List.length_singleton]; omega), List.take_of_length_le (by omega)]
  · rw [List.dedup_cons_of_notMem (fun h => hmem (List.mem_reverse.1 h)), List.reverse_cons, List.append_nil]
    rw [List.length_take] at hroom
    rw [List.take_append_of_le_length (by omega)]

theorem firstKeys_subset (h : k ∈ firstKeys key room s) : k ∈ s.map key := by
  have hmem := List.mem_of_mem_take h
  simpa using hmem

/-- What is used from nothing on has the first keys of the sequence, one element of each. -/
theorem keys_foldl_use_nil (key : α → κ) (room : Nat) (s : List α) :
    (s.foldl (use key room) []).length = (firstKeys key room s).length ∧
      ∀ k, k ∈ (s.foldl (use key room) []).map key ↔ k ∈ firstKeys key room s := by
  induction s using List.reverseRecOn with
  | nil => exact ⟨by simp [firstKeys], fun k => by simp [firstKeys]⟩
  | append_singleton s x ih =>
    obtain ⟨hlen, hkeys⟩ := ih
    rw [List.foldl_append, List.foldl_cons, List.foldl_nil, firstKeys_append_singleton]
    by_cases hin : key x ∈ (s.foldl (use key room) []).map key
    · -- the key is there, and comes to the end
      have hrenew : use key room (s.foldl (use key room) []) x = renew key (s.foldl (use key room) []) x :=
        if_pos (mem_map_iff_any.2 hin)
      rw [hrenew, if_pos (firstKeys_subset ((hkeys _).1 hin))]
      exact ⟨(length_renew hin).trans hlen, fun k => (mem_keys_renew_iff hin).trans (hkeys k)⟩
    · by_cases hroom : (s.foldl (use key room) []).length < room
      · -- a list that is not full has every key of the sequence
        have hnew : key x ∉ s.map key := by
          intro hmem
          obtain ⟨y, hy, hyx⟩ := List.mem_map.1 hmem
          exact absurd hroom (Nat.not_lt_of_le (full_of_not_mem hy (hyx ▸ hin)))
        have huse : use key room (s.foldl (use key room) []) x = s.foldl (use key room) [] ++ [x] :=
          (if_neg (fun h => hin (mem_map_iff_any.1 h))).trans (if_pos hroom)
        rw [huse, if_neg hnew, if_pos (hlen ▸ hroom)]
        refine ⟨by rw [List.length_append, List.length_append, hlen]; rfl, fun k => ?_⟩
        rw [List.map_append, List.mem_append, List.mem_append, hkeys k]
        exact Iff.rfl
      · have huse : use key room (s.foldl (use key room) []) x = s.foldl (use key room) [] :=
          (if_neg (fun h => hin (mem_map_iff_any.1 h))).trans (if_neg hroom)
        rw [hlen] at hroom
        rw [huse, if_neg hroom, List.append_nil, ite_self]
        exact ⟨hlen, hkeys⟩

/-- To use a sequence from nothing on is to keep the last element of each of its first keys. -/
theorem foldl_use_nil (key : α → κ) (room : Nat) (s : List α) :
    s.foldl (use key room) [] = lasts key (fun _ => 1) (s.filter (fun x => decide (key x ∈ firstKeys key room s))) := by
  obtain ⟨r, hr⟩ : ∃ r, r = s.foldl (use key room) [] := ⟨_, rfl⟩
  have hkeys : ∀ k, k ∈ r.map key ↔ k ∈ firstKeys key room s := hr ▸ (keys_foldl_use_nil key room s).2
  have hkept : kept key r s = s.filter (fun x => decide (key x ∈ firstKeys key room s)) := by
    refine List.filter_congr (fun x _ => ?_)
    rw [decide_eq_decide]
    exact hkeys (key x)
  rw [← hkept, foldl_use_eq (r := r) (fun x _ => by rw [hr]), foldl_renew, List.nil_append]
  refine lasts_congr (fun y hy => ?_)
  rw [copies, if_pos (List.mem_map_of_mem hy)]
  rfl

end Recency
