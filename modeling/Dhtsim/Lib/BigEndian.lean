import Mathlib.Data.List.Lex
import Mathlib.Data.Nat.Digits.Lemmas
import Mathlib.Data.Nat.Size

/-!
# Big-endian integers

The integer that a string of bytes spells, the most significant byte first. Strings of one length are ordered as their integers
are, and the number of binary digits is that of the first byte that is not zero and eight for each byte after it.
-/

/-- The integer that a string of bytes spells. -/
def bigEndian (l : List UInt8) : Nat := Nat.ofDigits 256 (l.reverse.map UInt8.toNat)

namespace BigEndian

variable {c : UInt8} {l as bs : List UInt8}

@[simp] theorem bigEndian_nil : bigEndian [] = 0 := rfl

theorem bigEndian_cons : bigEndian (c :: l) = c.toNat * 256 ^ l.length + bigEndian l := by
  unfold bigEndian
  rw [List.reverse_cons, List.map_append, Nat.ofDigits_append, List.length_map, List.length_reverse, List.map_singleton,
    Nat.ofDigits_singleton, Nat.mul_comm, Nat.add_comm]

theorem bigEndian_lt : bigEndian l < 256 ^ l.length := by
  induction l with
  | nil => exact Nat.one_pos
  | cons c l ih =>
    have hc : c.toNat + 1 ≤ 256 := UInt8.toNat_lt c
    calc bigEndian (c :: l) = c.toNat * 256 ^ l.length + bigEndian l := bigEndian_cons
      _ < c.toNat * 256 ^ l.length + 256 ^ l.length := Nat.add_lt_add_left ih _
      _ = (c.toNat + 1) * 256 ^ l.length := (Nat.succ_mul _ _).symm
      _ ≤ 256 * 256 ^ l.length := Nat.mul_le_mul_right _ hc
      _ = 256 ^ (c :: l).length := (Nat.pow_succ').symm

/-- A smaller first byte makes a smaller integer. -/
theorem bigEndian_lt_of_head_lt {a b : UInt8} (h : a < b) (hl : as.length = bs.length) :
    bigEndian (a :: as) < bigEndian (b :: bs) := by
  have hab : a.toNat + 1 ≤ b.toNat := UInt8.lt_iff_toNat_lt.1 h
  calc bigEndian (a :: as) = a.toNat * 256 ^ as.length + bigEndian as := bigEndian_cons
    _ < a.toNat * 256 ^ as.length + 256 ^ as.length := Nat.add_lt_add_left bigEndian_lt _
    _ = (a.toNat + 1) * 256 ^ bs.length := by rw [Nat.succ_mul, hl]
    _ ≤ b.toNat * 256 ^ bs.length := Nat.mul_le_mul_right _ hab
    _ ≤ bigEndian (b :: bs) := bigEndian_cons ▸ Nat.le_add_right _ _

/-- Strings of one length are ordered as their integers are. -/
theorem bigEndian_lt_iff (hl : as.length = bs.length) : bigEndian as < bigEndian bs ↔ as < bs := by
  induction as generalizing bs with
  | nil =>
    obtain rfl := List.length_eq_zero_iff.1 hl.symm
    simp
  | cons a as ih =>
    obtain ⟨b, bs, rfl⟩ := List.exists_cons_of_length_eq_add_one hl.symm
    have htail : as.length = bs.length := Nat.succ.inj hl
    rw [List.cons_lt_cons_iff]
    rcases lt_trichotomy a.toNat b.toNat with h | h | h
    · have h := UInt8.lt_iff_toNat_lt.2 h
      exact iff_of_true (bigEndian_lt_of_head_lt h htail) (Or.inl h)
    · obtain rfl : a = b := UInt8.toNat_inj.1 h
      rw [bigEndian_cons, bigEndian_cons, htail, Nat.add_lt_add_iff_left, ih htail]
      simp
    · have h := UInt8.lt_iff_toNat_lt.2 h
      refine iff_of_false (lt_asymm (bigEndian_lt_of_head_lt h htail.symm)) ?_
      rintro (hlt | ⟨rfl, -⟩)
      · exact UInt8.lt_asymm h hlt
      · exact UInt8.lt_irrefl _ h

theorem size_bigEndian_zero : Nat.size (bigEndian (0 :: l)) = Nat.size (bigEndian l) := by
  rw [bigEndian_cons]
  simp

/-- The first byte that is not zero has the first binary digit. -/
theorem size_bigEndian (hc : c ≠ 0) : Nat.size (bigEndian (c :: l)) = 8 * l.length + Nat.size c.toNat := by
  have hpow : (256 : Nat) ^ l.length = 2 ^ (8 * l.length) := by rw [Nat.pow_mul]
  have hlt : bigEndian l < 2 ^ (8 * l.length) := hpow ▸ bigEndian_lt
  have hne : c.toNat ≠ 0 := fun h => hc (UInt8.toNat_inj.1 h)
  have hpos : 0 < Nat.size c.toNat := Nat.size_pos.2 (Nat.pos_of_ne_zero hne)
  have hlow : 2 ^ (Nat.size c.toNat - 1) ≤ c.toNat := Nat.lt_size.1 (by omega)
  have hhigh : c.toNat + 1 ≤ 2 ^ Nat.size c.toNat := Nat.lt_size_self _
  rw [bigEndian_cons, hpow]
  refine le_antisymm ?_ ?_
  · rw [Nat.size_le, Nat.pow_add]
    calc c.toNat * 2 ^ (8 * l.length) + bigEndian l < (c.toNat + 1) * 2 ^ (8 * l.length) := by
          rw [Nat.succ_mul c.toNat]
          exact Nat.add_lt_add_left hlt _
      _ ≤ 2 ^ Nat.size c.toNat * 2 ^ (8 * l.length) := Nat.mul_le_mul_right _ hhigh
      _ = 2 ^ (8 * l.length) * 2 ^ Nat.size c.toNat := Nat.mul_comm _ _
  · have hsum : 8 * l.length + Nat.size c.toNat = 8 * l.length + (Nat.size c.toNat - 1) + 1 := by omega
    rw [hsum, Nat.succ_le_iff, Nat.lt_size, Nat.pow_add]
    calc 2 ^ (8 * l.length) * 2 ^ (Nat.size c.toNat - 1) = 2 ^ (Nat.size c.toNat - 1) * 2 ^ (8 * l.length) := Nat.mul_comm _ _
      _ ≤ c.toNat * 2 ^ (8 * l.length) := Nat.mul_le_mul_right _ hlow
      _ ≤ c.toNat * 2 ^ (8 * l.length) + bigEndian l := Nat.le_add_right _ _

end BigEndian
