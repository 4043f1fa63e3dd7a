import Mathlib.Data.List.Basic

/-!
# Patterns of a line

Regular expressions of characters and decimal numbers, one after the other, matched at the start of a text. Which characters are
digits is a parameter. A number is taken as long as it can be, and given back digit by digit while the rest does not match. Where no
number is followed by a digit a pattern is read just where a text has its form (`read_eq_some_iff`).
-/

namespace Pattern

/-- A part of a pattern: a character, or a number (`\d+`), in a group or not. -/
inductive Piece where
  | char (c : Char)
  | number (group : Bool)
deriving DecidableEq

/-- A group that was read is put before those that follow. -/
def capture (group : Bool) (digits : List Char) (groups : List (List Char)) : List (List Char) :=
  if group then digits :: groups else groups

/-- Match a pattern at the start of a text: what its groups hold. -/
def read (digit : Char → Bool) : List Piece → List Char → Option (List (List Char))
  | [], _ => some []
  | .char _ :: _, [] => none
  | .char c :: p, x :: s => if x = c then read digit p s else none
  | .number group :: p, s =>
    (List.range (s.takeWhile digit).length).reverse.findSome? (fun k =>
      (read digit p (s.drop (k + 1))).map (capture group (s.take (k + 1))))

/-- A text of the form that a pattern tells, with what its groups hold. -/
inductive Fits (digit : Char → Bool) : List Piece → List Char → List (List Char) → Prop where
  | nil : Fits digit [] [] []
  | char {c p s groups} (h : Fits digit p s groups) : Fits digit (.char c :: p) (c :: s) groups
  | number {group p s groups} {digits : List Char} (hne : digits ≠ []) (hdigits : ∀ c ∈ digits, digit c = true)
      (h : Fits digit p s groups) : Fits digit (.number group :: p) (digits ++ s) (capture group digits groups)

/-- The text does not begin with a digit. -/
def Stops (digit : Char → Bool) (s : List Char) : Prop := ∀ c, s.head? = some c → digit c = false

/-- No number is followed by a digit or by a number. -/
def Separated (digit : Char → Bool) : List Piece → Bool
  | [] => true
  | .char _ :: p => Separated digit p
  | .number _ :: .number _ :: _ => false
  | .number _ :: .char c :: p => !digit c && Separated digit p
  | [.number _] => true

/-- The pattern ends in a number. -/
def EndsInNumber : List Piece → Bool
  | [] => false
  | [.number _] => true
  | _ :: p => EndsInNumber p

/-- The characters of a text, as a pattern. -/
def literal (s : List Char) : List Piece := s.map Piece.char

variable {digit : Char → Bool} {p q : List Piece} {s rest text : List Char} {groups : List (List Char)}

theorem stops_dropWhile (s : List Char) : Stops digit (s.dropWhile digit) := by
  intro c hc
  have hhead := List.head?_dropWhile_not digit s
  rw [hc] at hhead
  exact hhead

/-- What is read off a text is there, and a number at its end is read to its end. -/
theorem fits_of_read (h : read digit p s = some groups) :
    ∃ text rest, s = text ++ rest ∧ Fits digit p text groups ∧ (EndsInNumber p = true → Stops digit rest) := by
  induction p generalizing s groups with
  | nil =>
    cases h
    exact ⟨[], s, rfl, .nil, fun hend => (by cases hend)⟩
  | cons piece p ih =>
    cases piece with
    | char c =>
      cases s with
      | nil => cases h
      | cons x s =>
        obtain ⟨rfl, hread⟩ := Option.ite_none_right_eq_some.1 h
        obtain ⟨text, rest, rfl, hfits, hstops⟩ := ih hread
        exact ⟨x :: text, rest, rfl, .char hfits, hstops⟩
    | number group =>
      cases p with
      | nil =>
        -- Nothing follows, so no digit is given back.
        obtain ⟨k, hk⟩ : ∃ k, (s.takeWhile digit).length = k + 1 := by
          cases hlength : (s.takeWhile digit).length with
          | zero =>
            rw [read, hlength] at h
            cases h
          | succ k => exact ⟨k, rfl⟩
        have htake : s.take (k + 1) = s.takeWhile digit := by
          rw [← hk]
          exact (List.prefix_iff_eq_take.1 (List.takeWhile_prefix _)).symm
        rw [read, hk, List.range_succ, List.reverse_append, List.reverse_singleton, List.singleton_append, List.findSome?_cons,
          htake] at h
        cases h
        have hne : s.takeWhile digit ≠ [] := by
          intro hnil
          rw [hnil] at hk
          cases hk
        have hfits : Fits digit [.number group] (s.takeWhile digit ++ []) _ :=
          Fits.nil.number hne (List.all_eq_true.1 List.all_takeWhile)
        rw [List.append_nil] at hfits
        exact ⟨_, _, List.takeWhile_append_dropWhile.symm, hfits, fun _ => stops_dropWhile s⟩
      | cons next p =>
        obtain ⟨k, hk, hmap⟩ := List.exists_of_findSome?_eq_some h
        obtain ⟨groups, hread, rfl⟩ := Option.map_eq_some_iff.1 hmap
        have hk : k < (s.takeWhile digit).length := List.mem_range.1 (List.mem_reverse.1 hk)
        have hbegins : s.take (k + 1) <+: s.takeWhile digit := by
          refine List.prefix_of_prefix_length_le (List.take_prefix _ _) (List.takeWhile_prefix _) ?_
          rw [List.length_take]
          omega
        have hne : s.take (k + 1) ≠ [] := by
          intro hnil
          have hlength := congrArg List.length hnil
          have hle := (List.takeWhile_prefix digit (l := s)).length_le
          rw [List.length_take, List.length_nil] at hlength
          omega
        have hdigits : ∀ c ∈ s.take (k + 1), digit c = true :=
          fun c hc => List.all_eq_true.1 List.all_takeWhile c (hbegins.subset hc)
        obtain ⟨text, rest, hdrop, hfits, hstops⟩ := ih hread
        refine ⟨s.take (k + 1) ++ text, rest, ?_, .number hne hdigits hfits, hstops⟩
        rw [List.append_assoc, ← hdrop, List.take_append_drop]

/-- Where no number is followed by a digit, a text is read as it was put together. -/
theorem read_of_fits (h : Fits digit p text groups) (hp : Separated digit p = true) (hrest : Stops digit rest) :
    read digit p (text ++ rest) = some groups := by
  induction h with
  | nil => rfl
  | @char c p s groups _ ih =>
    have hp : Separated digit p = true := hp
    simpa [read] using ih hp
  | @number group p s groups digits hne hdigits hfits ih =>
    have hstops : Separated digit p = true ∧ Stops digit (s ++ rest) := by
      cases hfits with
      | nil => exact ⟨rfl, hrest⟩
      | @char c _ _ _ _ =>
        obtain ⟨hc, hp⟩ := Bool.and_eq_true_iff.1 hp
        refine ⟨hp, fun x hx => ?_⟩
        cases hx
        simpa using hc
      | number _ _ _ => cases hp
    have hlongest : (digits ++ (s ++ rest)).takeWhile digit = digits := by
      rw [List.takeWhile_append_of_pos hdigits]
      cases hs : s ++ rest with
      | nil => simp
      | cons c l =>
        have hc : digit c = false := hstops.2 c (by rw [hs]; rfl)
        rw [List.takeWhile_cons_of_neg (by rw [hc]; exact Bool.false_ne_true), List.append_nil]
    obtain ⟨k, hk⟩ := Nat.exists_eq_succ_of_ne_zero (mt List.length_eq_zero_iff.1 hne)
    rw [read, List.append_assoc, hlongest, hk, List.range_succ, List.reverse_append, List.reverse_singleton, List.singleton_append,
      List.findSome?_cons, ← Nat.succ_eq_add_one, ← hk, List.drop_left, List.take_left, ih hstops.1]
    rfl

/-- Where a pattern ends in a number, and no number is followed by a digit, it is read just where it is. -/
theorem read_eq_some_iff (hp : Separated digit p = true) (hend : EndsInNumber p = true) :
    read digit p s = some groups ↔ ∃ text rest, s = text ++ rest ∧ Fits digit p text groups ∧ Stops digit rest := by
  constructor
  · intro h
    obtain ⟨text, rest, hs, hfits, hstops⟩ := fits_of_read h
    exact ⟨text, rest, hs, hfits, hstops hend⟩
  · rintro ⟨text, rest, rfl, hfits, hstops⟩
    exact read_of_fits hfits hp hstops

/-- Characters, and then a pattern. -/
theorem Fits.literal (h : Fits digit p s groups) (l : List Char) : Fits digit (Pattern.literal l ++ p) (l ++ s) groups := by
  induction l with
  | nil => exact h
  | cons c l ih => exact .char ih

theorem fits_literal {l : List Char} :
    Fits digit (Pattern.literal l ++ p) text groups ↔ ∃ s, text = l ++ s ∧ Fits digit p s groups := by
  constructor
  · intro h
    induction l generalizing text with
    | nil => exact ⟨text, rfl, h⟩
    | cons c l ih =>
      cases h with
      | char h =>
        obtain ⟨s, rfl, hfits⟩ := ih h
        exact ⟨s, rfl, hfits⟩
  · rintro ⟨s, rfl, h⟩
    exact h.literal l

/-- A number that was printed in decimal, and then a pattern. -/
theorem Fits.decimal (hdigit : ∀ c, c.isDigit = true → digit c = true) {group : Bool} (h : Fits digit p s groups) (n : Nat) :
    Fits digit (.number group :: p) (Nat.toDigits 10 n ++ s) (capture group (Nat.toDigits 10 n) groups) :=
  .number Nat.toDigits_ne_nil (fun c hc => hdigit c (Nat.isDigit_of_mem_toDigits (by decide) (by decide) hc)) h

/-- A pattern is not found where its characters are others. -/
theorem read_literal_eq_none {l l' : List Char} (hlength : l.length = l'.length) (hne : l ≠ l') (s : List Char) :
    read digit (literal l ++ p) (l' ++ s) = none := by
  induction l generalizing l' with
  | nil => exact absurd (List.length_eq_zero_iff.1 hlength.symm).symm hne
  | cons c l ih =>
    cases l' with
    | nil => cases hlength
    | cons x l' =>
      simp only [literal, List.map_cons, List.cons_append, read]
      split
      · next hx =>
        subst hx
        exact ih (Nat.succ.inj hlength) (fun h => hne (h ▸ rfl))
      · rfl

end Pattern
