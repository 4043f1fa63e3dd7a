import Mathlib.Algebra.Group.Nat.Defs
import Mathlib.Data.List.Basic

/-!
# Byte formats that can be read back

A format writes a value as bytes that show where they end, so what follows them does not matter when they are read back.
Formats are put together from smaller ones: a byte, a number of fixed width, a pair, a list, a block of fixed length, and the
values of another type that a format can stand for.
-/

/-- A way to write values as bytes and to read them back, with what is left over. -/
structure Format (T : Type) where
  write : T → List UInt8
  parse : List UInt8 → Option (T × List UInt8)
  parse_write : ∀ x rest, parse (write x ++ rest) = some (x, rest)

namespace Format

variable {S T : Type}

/-- A value that is known in advance takes no bytes. -/
def known (x : T) (h : ∀ y, y = x) : Format T where
  write _ := []
  parse l := some (x, l)
  parse_write y rest := by rw [h y]; rfl

def byte : Format UInt8 where
  write b := [b]
  parse
    | [] => none
    | b :: rest => some (b, rest)
  parse_write _ _ := rfl

/-- One value after the other. -/
def pair (f : Format S) (g : Format T) : Format (S × T) where
  write x := f.write x.1 ++ g.write x.2
  parse l := (f.parse l).bind (fun p => (g.parse p.2).map (fun q => ((p.1, q.1), q.2)))
  parse_write x rest := by
    rw [List.append_assoc, f.parse_write, Option.bind_some, g.parse_write]
    rfl

/-- Values of `T`, written as the values of `S` that stand for them. -/
def via (f : Format S) (stands : S → T) (back : T → S) (h : ∀ x, stands (back x) = x) : Format T where
  write x := f.write (back x)
  parse l := (f.parse l).map (fun p => (stands p.1, p.2))
  parse_write x rest := by
    rw [f.parse_write, Option.map_some, h]

def bool : Format Bool :=
  byte.via (fun b => decide (b = 1)) (fun x => if x then 1 else 0) (by decide)

/-- The lowest byte of a number and the rest of it. -/
def splitByte (w : Nat) (n : Fin (256 ^ (w + 1))) : UInt8 × Fin (256 ^ w) :=
  (UInt8.ofNat (n.val % 256), ⟨n.val / 256, Nat.div_lt_of_lt_mul (lt_of_lt_of_eq n.isLt (Nat.pow_succ'))⟩)

def joinByte (w : Nat) (p : UInt8 × Fin (256 ^ w)) : Fin (256 ^ (w + 1)) :=
  ⟨p.1.toNat + 256 * p.2.val, by
    have h1 := p.1.toNat_lt
    have h2 := p.2.isLt
    rw [Nat.pow_succ]
    omega⟩

theorem joinByte_splitByte (w : Nat) (n : Fin (256 ^ (w + 1))) : joinByte w (splitByte w n) = n := by
  apply Fin.ext
  simp only [joinByte, splitByte, UInt8.toNat_ofNat']
  omega

/-- A number of `w` bytes, the lowest byte first. -/
def number : (w : Nat) → Format (Fin (256 ^ w))
  | 0 => known 0 (fun y => Fin.ext (by have := y.isLt; simp only [Nat.pow_zero] at this ⊢; omega))
  | w + 1 => (byte.pair (number w)).via (joinByte w) (splitByte w) (joinByte_splitByte w)

def uint32 : Format UInt32 :=
  (number 4).via (fun n => UInt32.ofNat n.val) (fun x => ⟨x.toNat, x.toNat_lt⟩) (fun _ => UInt32.ofNat_toNat)

def uint64 : Format UInt64 :=
  (number 8).via (fun n => UInt64.ofNat n.val) (fun x => ⟨x.toNat, x.toNat_lt⟩) (fun _ => UInt64.ofNat_toNat)

/-! ## Lists -/

/-- Read the elements of a list: each after a one, a zero at the end. The list has no more elements than there are bytes. -/
def parseList (f : Format T) : Nat → List UInt8 → Option (List T × List UInt8)
  | fuel + 1, b :: l =>
    if b = 1 then (f.parse l).bind (fun p => (parseList f fuel p.2).map (fun q => (p.1 :: q.1, q.2))) else some ([], l)
  | _, _ => none

def writeList (f : Format T) : List T → List UInt8
  | [] => [0]
  | x :: l => 1 :: (f.write x ++ writeList f l)

theorem length_lt_writeList (f : Format T) (l : List T) : l.length < (writeList f l).length := by
  induction l with
  | nil => simp [writeList]
  | cons x l ih =>
    simp only [writeList, List.length_cons, List.length_append]
    omega

theorem parseList_writeList (f : Format T) (l : List T) (rest : List UInt8) (fuel : Nat) (h : l.length < fuel) :
    parseList f fuel (writeList f l ++ rest) = some (l, rest) := by
  induction l generalizing fuel with
  | nil =>
    obtain ⟨fuel, rfl⟩ := Nat.exists_eq_succ_of_ne_zero (Nat.ne_of_gt h)
    simp [writeList, parseList]
  | cons x l ih =>
    obtain ⟨fuel, rfl⟩ := Nat.exists_eq_succ_of_ne_zero (Nat.ne_of_gt (Nat.lt_of_le_of_lt (Nat.zero_le _) h))
    have hfuel : l.length < fuel := by simpa using h
    simp only [writeList, parseList, List.cons_append, List.append_assoc, if_true]
    rw [f.parse_write, Option.bind_some, ih fuel hfuel]
    rfl

def list (f : Format T) : Format (List T) where
  write := writeList f
  parse l := parseList f l.length l
  parse_write x rest := by
    refine parseList_writeList f x rest _ ?_
    have := length_lt_writeList f x
    rw [List.length_append]
    omega

/-! ## Blocks -/

/-- Exactly `n` bytes. -/
def block (n : Nat) : Format {l : List UInt8 // l.length = n} where
  write x := x.1
  parse l := if h : n ≤ l.length then some (⟨l.take n, List.length_take_of_le h⟩, l.drop n) else none
  parse_write x rest := by
    obtain ⟨l, rfl⟩ := x
    simp

end Format
