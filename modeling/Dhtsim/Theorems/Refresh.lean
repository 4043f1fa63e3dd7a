import Dhtsim.Lemmas.CallGraph
import Dhtsim.Model.Outside

/-!
# The target of a bucket refresh

`refreshSingleBucket` means to look up a key in the range of a bucket: the own key up to the index of the bucket, and random bits
after that. Its loop goes on while `j > KEY_LEN`, which is false at once, so the random key is looked up as it was drawn.
-/

namespace Dhtsim

open KademliaNode

/-- A key in the range of a bucket or of a closer one, with the bits of a random key after the index. -/
structure InRange (own random : KademliaKey) (bucketIndex : Nat) (target : KademliaKey) : Prop where
  own : ∀ j < bucketIndex, target.bit j = own.bit j
  random : ∀ j, bucketIndex ≤ j → target.bit j = random.bit j

/-- The loop of `refreshSingleBucket` ends before its first round. -/
theorem refreshTarget_eq (n : KademliaNode) (bucketIndex : Nat) (k : KademliaKey) : n.refreshTarget bucketIndex k = k := by
  apply KademliaKey.ext
  have hstop : ¬ 0 > keyLen := Nat.not_lt_zero _
  simp only [refreshTarget, refreshKeyLoop, if_neg hstop]

/-- The random key itself is in the range of a bucket when it shares the bits up to its index with the own key. -/
theorem inRange_self_iff (own k : KademliaKey) (i : Fin keyLenBits) :
    InRange own k i k ↔ i ≤ longestMatchingPrefix own k := by
  rw [le_longestMatchingPrefix_iff (le_of_lt i.isLt)]
  constructor
  · intro h j hj
    exact (h.own j hj).symm
  · intro h
    exact ⟨fun j hj => (h j hj).symm, fun _ _ => rfl⟩

/-- Bucket refresh, for the random keys that lie in the range of the bucket: `refreshSingleBucket` calls `findNodes` once, and
its target is in the range if and only if the random key it drew is, which it always is for bucket 0. In particular the bucket
of the target is this one or a closer one if and only if that of the random key is. -/
theorem refresh_inRange (Γ : Ctx) (n : KademliaNode) (i : Fin keyLenBits) (cb : CallbackSet RefreshFn) (ch : Choice) :
    ∃ target callback, exec Γ ch (.refreshSingleBucket i cb) n = some (n, [.lookup false target callback]) ∧
      (InRange n.key (randomizeKey Γ ch) i target ↔ i ≤ longestMatchingPrefix n.key (randomizeKey Γ ch)) ∧
      (i ≤ longestMatchingPrefix n.key target ↔ i ≤ longestMatchingPrefix n.key (randomizeKey Γ ch)) := by
  refine ⟨randomizeKey Γ ch, .of (.refresh cb) (.refresh cb), ?_, inRange_self_iff _ _ i, Iff.rfl⟩
  simp only [exec, refreshTarget_eq]

/-- A node whose key starts with a one refreshes its second bucket: the random key starts with a zero, and so does the target. -/
theorem refresh_inRange_false : ∃ target callback,
    exec .reference ⟨1, 0, false, 0⟩ (.refreshSingleBucket 1 .empty) (KademliaNode.init ⟨20, 10000, 1000⟩ (.starting 0x80) 700) =
      some (KademliaNode.init ⟨20, 10000, 1000⟩ (.starting 0x80) 700, [.lookup false target callback]) ∧
      (KademliaKey.starting 0x80).bit 0 = true ∧ target.bit 0 = false ∧
      ¬ InRange (.starting 0x80) (randomizeKey .reference ⟨1, 0, false, 0⟩) 1 target := by
  have hbit : (randomizeKey .reference ⟨1, 0, false, 0⟩).bit 0 = false := by decide +kernel
  have hown : (KademliaKey.starting 0x80).bit 0 = true := by decide +kernel
  refine ⟨randomizeKey .reference ⟨1, 0, false, 0⟩, .of (.refresh .empty) (.refresh .empty), ?_, hown, hbit, fun h => ?_⟩
  · simp only [exec, refreshTarget_eq]
  · have heq := h.own 0 Nat.zero_lt_one
    rw [hbit, hown] at heq
    cases heq

end Dhtsim
