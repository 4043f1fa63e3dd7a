import Dhtsim.Lib.BigEndian
import Dhtsim.Model.Key
import Mathlib.Order.RelClasses

/-!
# The XOR metric

`longest_matching_prefix` counts the leading bits on which two keys agree, which is what the index of a bucket is. `l2c` counts
binary digits, not the trailing zeros of its comment, and its caller takes them from the end of the byte. `key_distance_cmp`
orders keys by the integer of their XOR with the target. The prefix is what the binary digits of that integer leave of a key, so
that of two keys the one with the longer prefix is the closer one.
-/

namespace Dhtsim

/-- The number of leading bits on which two keys agree. -/
def leadingBits (a b : KademliaKey) : Nat :=
  ((List.range keyLenBits).takeWhile (fun j => decide (a.bit j = b.bit j))).length

/-- The XOR of a key and the target, as a big-endian integer. -/
def KademliaKey.distance (k target : KademliaKey) : Nat := bigEndian (k.distanceTo target)

namespace MetricAux

open BigEndian

variable {a b c t : KademliaKey}

/-- Of the numbers below `n`, as many come before the first one without the property as have it. -/
theorem length_takeWhile_range {p : Nat → Bool} {n l : Nat} (hl : l ≤ n) (hp : ∀ j < l, p j = true)
    (hstop : l < n → p l = false) : ((List.range n).takeWhile p).length = l := by
  obtain ⟨r, rfl⟩ := Nat.exists_eq_add_of_le hl
  have hfirst : ∀ j ∈ List.range l, p j = true := fun j hj => hp j (List.mem_range.1 hj)
  rw [List.range_add, List.takeWhile_append_of_pos hfirst, List.length_append, List.length_range]
  cases r with
  | zero => rfl
  | succ r =>
    have hhead : p l = false := hstop (by omega)
    rw [List.range_succ_eq_map, List.map_cons, List.takeWhile_cons_of_neg (by simp [hhead])]
    rfl

/-- `l2c` counts the binary digits of a byte. -/
theorem l2c_eq_size {x : UInt8} (hx : x ≠ 0) : l2c x = Nat.size x.toNat := by
  obtain ⟨hle, hpos, hbit, habove⟩ := l2c_spec x hx
  refine le_antisymm ?_ ?_
  · have hlow : 2 ^ (l2c x - 1) ≤ x.toNat := Nat.ge_two_pow_of_testBit hbit
    have hlt : l2c x - 1 < Nat.size x.toNat := Nat.lt_size.2 hlow
    omega
  · refine Nat.size_le.2 (Nat.lt_pow_two_of_testBit _ (fun j hj => ?_))
    by_cases hj8 : j < 8
    · have hzero := habove (7 - j) (by omega) (by omega)
      rwa [Nat.sub_sub_self (by omega)] at hzero
    · exact Nat.testBit_lt_two_pow (lt_of_lt_of_le (UInt8.toNat_lt x) (Nat.pow_le_pow_right (by decide) (by omega)))

/-- The loop of `longestMatchingPrefix` returns what the binary digits of the XOR leave of a key. -/
theorem longestMatchingPrefixLoop_eq (as bs : List UInt8) (i : Nat) (hl : as.length = bs.length) (hi : i + as.length = keyLen) :
    longestMatchingPrefixLoop i as bs = keyLenBits - Nat.size (bigEndian (List.zipWith (· ^^^ ·) as bs)) := by
  induction as generalizing bs i with
  | nil =>
    obtain rfl := List.length_eq_zero_iff.1 hl.symm
    rfl
  | cons x as ih =>
    obtain ⟨y, bs, rfl⟩ := List.exists_cons_of_length_eq_add_one hl.symm
    simp only [List.length_cons, Nat.add_right_cancel_iff] at hl hi
    rw [longestMatchingPrefixLoop, List.zipWith_cons_cons]
    split_ifs with hx
    · have hlen : (List.zipWith (· ^^^ ·) as bs).length = as.length := by
        rw [List.length_zipWith, ← hl, Nat.min_self]
      rw [size_bigEndian hx, l2c_eq_size hx, hlen, keyLenBits]
      omega
    · have hzero : x ^^^ y = 0 := not_not.1 hx
      rw [hzero, size_bigEndian_zero]
      exact ih bs (i + 1) hl (by omega)

theorem longestMatchingPrefix_eq_size (a b : KademliaKey) :
    longestMatchingPrefix a b = keyLenBits - Nat.size (a.distance b) :=
  longestMatchingPrefixLoop_eq a.key b.key 0 (a.length_key.trans b.length_key.symm) ((Nat.zero_add _).trans a.length_key)

theorem longestMatchingPrefix_comm (a b : KademliaKey) : longestMatchingPrefix a b = longestMatchingPrefix b a := by
  refine le_antisymm ?_ ?_
  · exact (le_longestMatchingPrefix_iff (longestMatchingPrefix_le a b)).2 (fun j hj => (bit_eq_of_lt hj).symm)
  · exact (le_longestMatchingPrefix_iff (longestMatchingPrefix_le b a)).2 (fun j hj => (bit_eq_of_lt hj).symm)

/-- The prefix length is the number of leading bits on which the keys agree. -/
theorem longestMatchingPrefix_eq_leadingBits (a b : KademliaKey) : longestMatchingPrefix a b = leadingBits a b := by
  refine (length_takeWhile_range (longestMatchingPrefix_le a b) (fun j hj => ?_) (fun hlt => ?_)).symm
  · exact decide_eq_true (bit_eq_of_lt hj)
  · exact decide_eq_false (bit_ne_of_lt hlt)

theorem length_distanceTo (k target : KademliaKey) : (k.distanceTo target).length = keyLen := by
  rw [KademliaKey.distanceTo, List.length_zipWith, k.length_key, target.length_key, Nat.min_self]

/-- The loop of `keyDistanceCmp` compares the distances as integers. -/
theorem keyDistanceCmp_iff : keyDistanceCmp t a b = true ↔ a.distance t < b.distance t := by
  rw [keyDistanceCmp_eq, decide_eq_true_eq]
  exact (bigEndian_lt_iff ((length_distanceTo a t).trans (length_distanceTo b t).symm)).symm

/-- Different keys have different distances. -/
theorem distance_injective (h : a.distance t = b.distance t) : a = b := by
  have hl : (a.distanceTo t).length = (b.distanceTo t).length := (length_distanceTo a t).trans (length_distanceTo b t).symm
  suffices heq : a.distanceTo t = b.distanceTo t from eq_of_distanceTo_eq heq
  rcases lt_trichotomy (a.distanceTo t) (b.distanceTo t) with hlt | heq | hlt
  · exact absurd h (ne_of_lt ((bigEndian_lt_iff hl).2 hlt))
  · exact heq
  · exact absurd h (ne_of_gt ((bigEndian_lt_iff hl.symm).2 hlt))

end MetricAux

open MetricAux

/-- The prefix length, in four parts, for all keys.
1. It is the number of leading bits on which the keys agree.
2. It is symmetric.
3. It is `keyLenBits` for equal keys only, and less for all others, so that the index of their bucket is in range.
4. Of three keys, two agree on as many leading bits as both do with the third. -/
theorem prefix_length (a b : KademliaKey) :
    longestMatchingPrefix a b = leadingBits a b ∧ longestMatchingPrefix a b = longestMatchingPrefix b a ∧
      (longestMatchingPrefix a b = keyLenBits ↔ a = b) ∧ (a ≠ b → longestMatchingPrefix a b < keyLenBits) ∧
      ∀ c, min (longestMatchingPrefix a b) (longestMatchingPrefix b c) ≤ longestMatchingPrefix a c := by
  have hle := longestMatchingPrefix_le a b
  have hfull : longestMatchingPrefix a b = keyLenBits ↔ a = b := by
    refine ⟨eq_of_longestMatchingPrefix, ?_⟩
    rintro rfl
    exact longestMatchingPrefix_self a
  refine ⟨longestMatchingPrefix_eq_leadingBits a b, longestMatchingPrefix_comm a b, hfull,
    fun hne => lt_of_le_of_ne hle (fun h => hne (hfull.1 h)), fun c => ?_⟩
  refine (le_longestMatchingPrefix_iff ((min_le_left _ _).trans hle)).2 (fun j hj => ?_)
  obtain ⟨hab, hbc⟩ := lt_min_iff.1 hj
  exact (bit_eq_of_lt hab).trans (bit_eq_of_lt hbc)

/-- The order by distance, in three parts, for every target.
1. A key is closer than another when the integer of its XOR with the target is the smaller one.
2. This is a strict total order of the keys: it is irreflexive and transitive, and of two different keys one is closer.
3. A key that shares a longer prefix with the target is closer. -/
theorem distance_order (t : KademliaKey) :
    (∀ a b, keyDistanceCmp t a b = true ↔ a.distance t < b.distance t) ∧
      IsStrictTotalOrder KademliaKey (fun a b => keyDistanceCmp t a b = true) ∧
      ∀ a b, longestMatchingPrefix t b < longestMatchingPrefix t a → keyDistanceCmp t a b = true := by
  refine ⟨fun a b => keyDistanceCmp_iff, ?_, fun a b h => ?_⟩
  · have horder : (fun a b => keyDistanceCmp t a b = true) = InvImage (· < ·) (fun k : KademliaKey => k.distance t) := by
      funext a b
      exact propext keyDistanceCmp_iff
    rw [horder]
    exact { irrefl := fun a => lt_irrefl _
            trans := fun a b c => lt_trans
            trichotomous := fun a b hab hba => distance_injective (le_antisymm (not_lt.1 hba) (not_lt.1 hab)) }
  · rw [longestMatchingPrefix_comm t a, longestMatchingPrefix_comm t b, longestMatchingPrefix_eq_size,
      longestMatchingPrefix_eq_size] at h
    refine keyDistanceCmp_iff.2 (lt_of_not_ge (fun hge => ?_))
    have hsize : Nat.size (b.distance t) ≤ Nat.size (a.distance t) := Nat.size_le_size hge
    omega

end Dhtsim
