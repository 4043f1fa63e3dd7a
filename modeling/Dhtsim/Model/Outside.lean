import Dhtsim.Lib.Format
import Dhtsim.Model.Message
import Mathlib.Data.List.Sort

/-!
# A program to run against

One way to fill in the code outside the repository: SHA-1, insertion sort (what `std::sort` does with a short vector), and a
format for each structure that reads back what it wrote.
-/

namespace Dhtsim

/-! ## SHA-1 -/

def rotateLeft (x : UInt32) (n : UInt32) : UInt32 := (x <<< n) ||| (x >>> (32 - n))

/-- The bytes of a 32-bit word, the highest first. -/
def wordBytes (x : UInt32) : List UInt8 := [(x >>> 24).toUInt8, (x >>> 16).toUInt8, (x >>> 8).toUInt8, x.toUInt8]

/-- The words of a string of bytes, the highest byte of each first. -/
def wordsOf : List UInt8 → List UInt32
  | a :: b :: c :: d :: rest =>
    ((a.toUInt32 <<< 24) ||| (b.toUInt32 <<< 16) ||| (c.toUInt32 <<< 8) ||| d.toUInt32) :: wordsOf rest
  | _ => []

/-- A one bit, zeros up to eight bytes less than a multiple of 64, and the length in bits. -/
def padded (l : List UInt8) : List UInt8 :=
  l ++ [0x80] ++ List.replicate ((119 - l.length % 64) % 64) 0 ++
    wordBytes (UInt32.ofNat (l.length * 8 / 2 ^ 32)) ++ wordBytes (UInt32.ofNat (l.length * 8))

/-- Extend the message schedule by `n` words. The last word comes first. -/
def schedule : Nat → List UInt32 → List UInt32
  | 0, ws => ws
  | n + 1, ws =>
    schedule n (rotateLeft (ws.getD 2 0 ^^^ ws.getD 7 0 ^^^ ws.getD 13 0 ^^^ ws.getD 15 0) 1 :: ws)

/-- The state of SHA-1: five words. -/
structure Sha1State where
  a : UInt32
  b : UInt32
  c : UInt32
  d : UInt32
  e : UInt32

def Sha1State.start : Sha1State := ⟨0x67452301, 0xEFCDAB89, 0x98BADCFE, 0x10325476, 0xC3D2E1F0⟩

/-- Round `t`, with the word of the schedule. -/
def Sha1State.round (s : Sha1State) (t : Nat) (w : UInt32) : Sha1State :=
  let (f, k) : UInt32 × UInt32 :=
    if t < 20 then ((s.b &&& s.c) ||| (~~~s.b &&& s.d), 0x5A827999)
    else if t < 40 then (s.b ^^^ s.c ^^^ s.d, 0x6ED9EBA1)
    else if t < 60 then ((s.b &&& s.c) ||| (s.b &&& s.d) ||| (s.c &&& s.d), 0x8F1BBCDC)
    else (s.b ^^^ s.c ^^^ s.d, 0xCA62C1D6)
  ⟨rotateLeft s.a 5 + f + s.e + k + w, s.a, rotateLeft s.b 30, s.c, s.d⟩

def Sha1State.rounds (s : Sha1State) : Nat → List UInt32 → Sha1State
  | _, [] => s
  | t, w :: ws => (s.round t w).rounds (t + 1) ws

def Sha1State.block (s : Sha1State) (ws : List UInt32) : Sha1State :=
  let s' := s.rounds 0 (schedule 64 ws.reverse).reverse
  ⟨s.a + s'.a, s.b + s'.b, s.c + s'.c, s.d + s'.d, s.e + s'.e⟩

def Sha1State.blocks (s : Sha1State) : Nat → List UInt32 → Sha1State
  | 0, _ => s
  | n + 1, ws => (s.block (ws.take 16)).blocks n (ws.drop 16)

def sha1 (l : List UInt8) : KademliaKey :=
  let ws := wordsOf (padded l)
  let s := Sha1State.start.blocks (ws.length / 16) ws
  ⟨wordBytes s.a ++ wordBytes s.b ++ wordBytes s.c ++ wordBytes s.d ++ wordBytes s.e, rfl⟩

/-- The digest of `abc`. -/
example : (sha1 [0x61, 0x62, 0x63]).key =
    [0xA9, 0x99, 0x3E, 0x36, 0x47, 0x06, 0x81, 0x6A, 0xBA, 0x3E, 0x25, 0x71, 0x78, 0x50, 0xC2, 0x6C, 0x9C, 0xD0, 0xD8,
      0x9D] := by
  decide +kernel

/-! ## The formats -/

/-- A codec that leaves the structure as it was when the bytes are not in its format. -/
def codecOf {T : Type} (f : Format T) : Codec T where
  write := f.write
  read l x :=
    match f.parse l with
    | some p => p.1
    | none => x

theorem codecOf_inverts {T : Type} (f : Format T) : (codecOf f).Inverts := by
  intro x y
  have h := f.parse_write x []
  rw [List.append_nil] at h
  simp only [codecOf, h]

def keyFormat : Format KademliaKey :=
  (Format.block keyLen).via (fun l => ⟨l.1, l.2⟩) (fun k => ⟨k.key, k.length_key⟩) (fun _ => rfl)

def entryFormat : Format BucketEntry :=
  (keyFormat.pair (Format.uint32.pair Format.uint64)).via (fun p => ⟨p.1, p.2.1, p.2.2⟩)
    (fun e => (e.key, e.address, e.lastSeen)) (fun _ => rfl)

def pingFormat : Format PingMessage :=
  (Format.bool.pair keyFormat).via (fun p => ⟨p.1, p.2⟩) (fun m => (m.pingOrPong, m.sender)) (fun _ => rfl)

def findNodesFormat : Format FindNodesMessage :=
  (keyFormat.pair (Format.bool.pair (Format.bool.pair (keyFormat.pair (Format.uint32.pair
    (entryFormat.list.pair (Format.bool.pair Format.byte.list))))))).via
    (fun p => ⟨p.1, p.2.1, p.2.2.1, p.2.2.2.1, p.2.2.2.2.1, p.2.2.2.2.2.1, p.2.2.2.2.2.2.1, p.2.2.2.2.2.2.2⟩)
    (fun m => (m.sender, m.request, m.findValue, m.target, m.numFound, m.nearest, m.valueFound, m.value)) (fun _ => rfl)

def storeFormat : Format StoreMessage :=
  (Format.bool.pair (keyFormat.pair Format.byte.list)).via (fun p => ⟨p.1, p.2.1, p.2.2⟩)
    (fun m => (m.request, m.sender, m.value)) (fun _ => rfl)

/-! ## Sorting -/

/-- Insertion sort sorts: no element is less than one before it. -/
theorem pairwise_insertionSort_of_strictWeak {T : Type} {lt : T → T → Bool} (h : StrictWeak lt) (l : List T) :
    (l.insertionSort (fun a b => lt b a = false)).Pairwise (fun a b => lt b a = false) := by
  have : Std.Total (fun a b => lt b a = false) := ⟨fun a b => by
    by_cases hab : lt b a = true
    · exact Or.inr (h.asymm _ _ hab)
    · exact Or.inl (by simpa using hab)⟩
  have : IsTrans T (fun a b => lt b a = false) := ⟨fun a b c h1 h2 => h.negTrans _ _ _ h2 h1⟩
  exact List.pairwise_insertionSort _ l

/-- The program against which runs are evaluated. -/
def Ctx.reference : Ctx where
  sha1 := Dhtsim.sha1
  ping := codecOf pingFormat
  findNodes := codecOf findNodesFormat
  store := codecOf storeFormat
  sort lt l := l.insertionSort (fun a b => lt b a = false)
  sort_perm _ l := List.perm_insertionSort _ l
  sort_sorted _ l h := pairwise_insertionSort_of_strictWeak h l

theorem Ctx.reference_decodes : Ctx.reference.Decodes :=
  ⟨codecOf_inverts _, codecOf_inverts _, codecOf_inverts _⟩

/-- A message with two keys is longer than one key and five bytes. -/
theorem Ctx.reference_findNodes_length (m : FindNodesMessage) :
    1 + keyLen + 4 ≤ (Ctx.reference.findNodes.write m).length := by
  have hlen : ∀ k : KademliaKey, (keyFormat.write k).length = keyLen := fun k => k.length_key
  simp only [Ctx.reference, codecOf, findNodesFormat, Format.via, Format.pair, List.length_append, hlen, keyLen]
  omega

end Dhtsim
