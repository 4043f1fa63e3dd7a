import Mathlib.Order.Basic
import Mathlib.Data.List.Lex

/-!
# Keys

`KademliaKey` of `kademlia/key.hpp`, and the two byte loops of `kademlia.cpp` over it: `longest_matching_prefix`, which picks
the bucket of a key, and `key_distance_cmp`, which orders keys by XOR distance. Unsigned machine integers keep their width
(`unsigned char`, `uint32_t`, `unsigned long`); a length or an index is a `Nat`.
-/

namespace Dhtsim

instance instLinearOrderUInt8 : LinearOrder UInt8 where
  le_refl _ := UInt8.le_refl _
  le_trans _ _ _ := UInt8.le_trans
  le_antisymm _ _ := UInt8.le_antisymm
  le_total := UInt8.le_total
  lt_iff_le_not_ge a b := by
    rw [UInt8.not_le]
    exact ⟨fun h => ⟨UInt8.le_of_lt h, h⟩, fun h => h.2⟩
  toDecidableLE := inferInstance
  toDecidableLT := inferInstance

instance instLinearOrderUInt32 : LinearOrder UInt32 where
  le_refl _ := UInt32.le_refl _
  le_trans _ _ _ := UInt32.le_trans
  le_antisymm _ _ := UInt32.le_antisymm
  le_total := UInt32.le_total
  lt_iff_le_not_ge a b := by
    rw [UInt32.not_le]
    exact ⟨fun h => ⟨UInt32.le_of_lt h, h⟩, fun h => h.2⟩
  toDecidableLE := inferInstance
  toDecidableLT := inferInstance

instance instLinearOrderUInt64 : LinearOrder UInt64 where
  le_refl _ := UInt64.le_refl _
  le_trans _ _ _ := UInt64.le_trans
  le_antisymm _ _ := UInt64.le_antisymm
  le_total := UInt64.le_total
  lt_iff_le_not_ge a b := by
    rw [UInt64.not_le]
    exact ⟨fun h => ⟨UInt64.le_of_lt h, h⟩, fun h => h.2⟩
  toDecidableLE := inferInstance
  toDecidableLT := inferInstance

/-- The network's time (`time.hpp`). -/
abbrev Time := UInt64

/-- The tag of a message, an `unsigned long`. -/
abbrev Tag := UInt64

/-- The length of a key in bytes: `SHA_DIGEST_LENGTH`. -/
def keyLen : Nat := 20

/-- The length of a key in bits. -/
def keyLenBits : Nat := keyLen * 8

/-- A node or value key: `keyLen` bytes. -/
structure KademliaKey where
  key : List UInt8
  length_key : key.length = keyLen
deriving DecidableEq

theorem KademliaKey.ext {k k' : KademliaKey} (h : k.key = k'.key) : k = k' := by
  cases k
  cases k'
  simp only at h
  subst h
  rfl

/-- The order of keys is that of `memcmp`: lexicographic in the bytes. -/
instance instLinearOrderKademliaKey : LinearOrder KademliaKey := LinearOrder.lift' KademliaKey.key (fun _ _ h => KademliaKey.ext h)

/-- The key a default constructor makes: all bytes zero. -/
def KademliaKey.zero : KademliaKey := ⟨List.replicate keyLen 0, List.length_replicate⟩

/-- A key by its first byte. -/
def KademliaKey.starting (b : UInt8) : KademliaKey := ⟨b :: List.replicate 19 0, rfl⟩

/-- The loop of `l2c`: count the shifts until nothing of `c` is left. An `unsigned char` is zero after eight. -/
def l2cLoop : Nat → UInt8 → Nat → Nat
  | 0, _, result => result
  | fuel + 1, c, result => if 0 < c then l2cLoop fuel (c >>> 1) (result + 1) else result

/-- The number of binary digits of `c`. -/
def l2c (c : UInt8) : Nat := l2cLoop 8 c 0

/-- The loop of `longestMatchingPrefix`, from byte `i` on. -/
def longestMatchingPrefixLoop : Nat → List UInt8 → List UInt8 → Nat
  | i, a :: as, b :: bs =>
    if a ^^^ b ≠ 0 then (i + 1) * 8 - l2c (a ^^^ b) else longestMatchingPrefixLoop (i + 1) as bs
  | _, _, _ => keyLenBits

/-- The longest matching binary prefix of two keys. -/
def longestMatchingPrefix (k1 k2 : KademliaKey) : Nat := longestMatchingPrefixLoop 0 k1.key k2.key

/-- The loop of `keyDistanceCmp`: the first byte where the two distances differ decides. -/
def keyDistanceCmpLoop : List UInt8 → List UInt8 → List UInt8 → Bool
  | t :: ts, a :: as, b :: bs =>
    if a ^^^ t ≠ b ^^^ t then decide (a ^^^ t < b ^^^ t) else keyDistanceCmpLoop ts as bs
  | _, _, _ => false

/-- Whether `k1` is closer to the target than `k2`. -/
def keyDistanceCmp (target k1 k2 : KademliaKey) : Bool := keyDistanceCmpLoop target.key k1.key k2.key

/-! ## The prefix, bit by bit -/

/-- Bit `j` of a string of bytes, the most significant bit of the first byte first. -/
def bitAt : List UInt8 → Nat → Bool
  | [], _ => false
  | c :: l, j => if j < 8 then c.toNat.testBit (7 - j) else bitAt l (j - 8)

/-- Bit `j` of a key. -/
def KademliaKey.bit (k : KademliaKey) (j : Nat) : Bool := bitAt k.key j

/-- In a byte that is not zero, `8 - l2c` is the place of the first one. -/
theorem l2c_spec (c : UInt8) (hc : c ≠ 0) :
    l2c c ≤ 8 ∧ 1 ≤ l2c c ∧ c.toNat.testBit (l2c c - 1) = true ∧
      ∀ j < 8, 7 - j ≥ l2c c → c.toNat.testBit (7 - j) = false := by
  have key : ∀ n : Fin 256, n ≠ 0 → l2c (UInt8.ofFin n) ≤ 8 ∧ 1 ≤ l2c (UInt8.ofFin n) ∧
      n.val.testBit (l2c (UInt8.ofFin n) - 1) = true ∧
        ∀ j < 8, 7 - j ≥ l2c (UInt8.ofFin n) → n.val.testBit (7 - j) = false := by
    decide +kernel
  have h := key c.toFin (by
    intro h0
    exact hc (by rw [← UInt8.ofFin_toFin c, h0]; rfl))
  rwa [UInt8.ofFin_toFin] at h

/-- Two bytes that differ agree on the bits before the first one of their XOR, and differ there. -/
theorem bits_of_xor {a b : UInt8} (h : a ^^^ b ≠ 0) :
    l2c (a ^^^ b) ≤ 8 ∧ 1 ≤ l2c (a ^^^ b) ∧
      (∀ j < 8 - l2c (a ^^^ b), a.toNat.testBit (7 - j) = b.toNat.testBit (7 - j)) ∧
      a.toNat.testBit (7 - (8 - l2c (a ^^^ b))) ≠ b.toNat.testBit (7 - (8 - l2c (a ^^^ b))) := by
  obtain ⟨h1, h2, h3, h4⟩ := l2c_spec _ h
  refine ⟨h1, h2, fun j hj => ?_, ?_⟩
  · have := h4 j (by omega) (by omega)
    rw [UInt8.toNat_xor, Nat.testBit_xor] at this
    simpa using this
  · have e : 7 - (8 - l2c (a ^^^ b)) = l2c (a ^^^ b) - 1 := by omega
    rw [e]
    rw [UInt8.toNat_xor, Nat.testBit_xor] at h3
    intro hab
    simp [hab] at h3

/-- What the loop of `longestMatchingPrefix` returns from byte `i` on: eight times `i` and the bits on which the rests agree. -/
theorem longestMatchingPrefixLoop_spec (as bs : List UInt8) (i : Nat) (hl : as.length = bs.length)
    (hi : i + as.length = keyLen) :
    8 * i ≤ longestMatchingPrefixLoop i as bs ∧ longestMatchingPrefixLoop i as bs ≤ keyLenBits ∧
      (∀ j < longestMatchingPrefixLoop i as bs - 8 * i, bitAt as j = bitAt bs j) ∧
      (longestMatchingPrefixLoop i as bs < keyLenBits →
        bitAt as (longestMatchingPrefixLoop i as bs - 8 * i) ≠ bitAt bs (longestMatchingPrefixLoop i as bs - 8 * i)) ∧
      (longestMatchingPrefixLoop i as bs = keyLenBits → as = bs) := by
  induction as generalizing bs i with
  | nil =>
    have hb : bs = [] := List.eq_nil_of_length_eq_zero hl.symm
    subst hb
    simp only [List.length_nil] at hi
    simp only [longestMatchingPrefixLoop, keyLenBits]
    exact ⟨by omega, le_refl _, fun _ _ => trivial, fun h => absurd h (lt_irrefl _), fun _ => trivial⟩
  | cons a as ih =>
    cases bs with
    | nil => cases hl
    | cons b bs =>
      simp only [List.length_cons, Nat.add_right_cancel_iff] at hl hi
      simp only [longestMatchingPrefixLoop]
      split_ifs with hx
      · obtain ⟨h1, h2, h3, h4⟩ := bits_of_xor hx
        have e : (i + 1) * 8 - l2c (a ^^^ b) - 8 * i = 8 - l2c (a ^^^ b) := by omega
        have hlt : (i + 1) * 8 - l2c (a ^^^ b) < keyLenBits := by simp only [keyLenBits]; omega
        rw [e]
        refine ⟨by omega, le_of_lt hlt, fun j hj => ?_, fun _ => ?_, fun h => absurd h (ne_of_lt hlt)⟩
        · simp only [bitAt, if_pos (show j < 8 by omega)]
          exact h3 j hj
        · simp only [bitAt, if_pos (show 8 - l2c (a ^^^ b) < 8 by omega)]
          exact h4
      · have hab : a = b := by simpa using hx
        subst hab
        obtain ⟨h1, h2, h3, h4, h5⟩ := ih bs (i + 1) hl (by omega)
        refine ⟨by omega, h2, fun j hj => ?_, fun h => ?_, fun h => by rw [h5 h]⟩
        · simp only [bitAt]
          split_ifs
          · rfl
          · exact h3 _ (by omega)
        · have e : longestMatchingPrefixLoop (i + 1) as bs - 8 * i =
              longestMatchingPrefixLoop (i + 1) as bs - 8 * (i + 1) + 8 := by omega
          rw [e]
          simpa only [bitAt, if_neg (Nat.not_lt.2 (Nat.le_add_left 8 _)), Nat.add_sub_cancel] using h4 h

/-- The prefix is never longer than a key. -/
theorem longestMatchingPrefix_le (a b : KademliaKey) : longestMatchingPrefix a b ≤ keyLenBits :=
  (longestMatchingPrefixLoop_spec a.key b.key 0 (a.length_key.trans b.length_key.symm)
    (by rw [a.length_key]; rfl)).2.1

/-- Two keys agree on every bit of the prefix. -/
theorem bit_eq_of_lt {a b : KademliaKey} {j : Nat} (hj : j < longestMatchingPrefix a b) : a.bit j = b.bit j :=
  (longestMatchingPrefixLoop_spec a.key b.key 0 (a.length_key.trans b.length_key.symm)
    (by rw [a.length_key]; rfl)).2.2.1 j (by simpa [longestMatchingPrefix] using hj)

/-- Two keys differ on the first bit after the prefix. -/
theorem bit_ne_of_lt {a b : KademliaKey} (h : longestMatchingPrefix a b < keyLenBits) :
    a.bit (longestMatchingPrefix a b) ≠ b.bit (longestMatchingPrefix a b) :=
  (longestMatchingPrefixLoop_spec a.key b.key 0 (a.length_key.trans b.length_key.symm)
    (by rw [a.length_key]; rfl)).2.2.2.1 h

/-- Keys that share all bits are equal. -/
theorem eq_of_longestMatchingPrefix {a b : KademliaKey} (h : longestMatchingPrefix a b = keyLenBits) : a = b :=
  KademliaKey.ext ((longestMatchingPrefixLoop_spec a.key b.key 0 (a.length_key.trans b.length_key.symm)
    (by rw [a.length_key]; rfl)).2.2.2.2 h)

/-- A key shares all its bits with itself. -/
theorem longestMatchingPrefix_self (a : KademliaKey) : longestMatchingPrefix a a = keyLenBits := by
  by_contra h
  exact bit_ne_of_lt (lt_of_le_of_ne (longestMatchingPrefix_le a a) h) rfl

/-- A prefix has at least `b` bits when the first `b` bits of the keys are equal. -/
theorem le_longestMatchingPrefix_iff {a b : KademliaKey} {l : Nat} (hl : l ≤ keyLenBits) :
    l ≤ longestMatchingPrefix a b ↔ ∀ j < l, a.bit j = b.bit j := by
  constructor
  · intro h j hj
    exact bit_eq_of_lt (lt_of_lt_of_le hj h)
  · intro h
    by_contra hlt
    have hlt : longestMatchingPrefix a b < l := Nat.lt_of_not_le hlt
    exact bit_ne_of_lt (lt_of_lt_of_le hlt hl) (h _ hlt)

/-! ## The distance -/

/-- The XOR distance of a key to the target. -/
def KademliaKey.distanceTo (k target : KademliaKey) : List UInt8 := List.zipWith (· ^^^ ·) k.key target.key

/-- The loop of `keyDistanceCmp` compares the distances, byte by byte. -/
theorem keyDistanceCmpLoop_eq (ts as bs : List UInt8) (ha : as.length = ts.length) (hb : bs.length = ts.length) :
    keyDistanceCmpLoop ts as bs = decide (List.zipWith (· ^^^ ·) as ts < List.zipWith (· ^^^ ·) bs ts) := by
  induction ts generalizing as bs with
  | nil =>
    rw [List.length_eq_zero_iff.1 ha, List.length_eq_zero_iff.1 hb]
    rfl
  | cons t ts ih =>
    obtain ⟨a, as, rfl⟩ := List.exists_cons_of_length_eq_add_one ha
    obtain ⟨b, bs, rfl⟩ := List.exists_cons_of_length_eq_add_one hb
    simp only [List.length_cons, Nat.add_right_cancel_iff] at ha hb
    simp only [keyDistanceCmpLoop, List.zipWith_cons_cons, List.cons_lt_cons_iff]
    split_ifs with hne
    · simp [hne]
    · have heq : a ^^^ t = b ^^^ t := by simpa using hne
      rw [ih as bs ha hb, heq]
      simp

theorem keyDistanceCmp_eq (target a b : KademliaKey) :
    keyDistanceCmp target a b = decide (a.distanceTo target < b.distanceTo target) :=
  keyDistanceCmpLoop_eq _ _ _ (a.length_key.trans target.length_key.symm) (b.length_key.trans target.length_key.symm)

/-- Different keys have different distances. -/
theorem eq_of_distanceTo_eq {target a b : KademliaKey} (h : a.distanceTo target = b.distanceTo target) : a = b := by
  have hbytes : ∀ ts as bs : List UInt8, as.length = ts.length → bs.length = ts.length →
      List.zipWith (· ^^^ ·) as ts = List.zipWith (· ^^^ ·) bs ts → as = bs := by
    intro ts
    induction ts with
    | nil =>
      intro as bs ha hb _
      rw [List.length_eq_zero_iff.1 ha, List.length_eq_zero_iff.1 hb]
    | cons t ts ih =>
      intro as bs ha hb he
      obtain ⟨a, as, rfl⟩ := List.exists_cons_of_length_eq_add_one ha
      obtain ⟨b, bs, rfl⟩ := List.exists_cons_of_length_eq_add_one hb
      simp only [List.length_cons, Nat.add_right_cancel_iff] at ha hb
      simp only [List.zipWith_cons_cons, List.cons.injEq, UInt8.xor_left_inj] at he
      rw [he.1, ih as bs ha hb he.2]
  exact KademliaKey.ext (hbytes target.key a.key b.key (a.length_key.trans target.length_key.symm)
    (b.length_key.trans target.length_key.symm) h)

end Dhtsim
