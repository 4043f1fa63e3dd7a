import Dhtsim.Lib.Selection
import Dhtsim.Theorems.Eviction

/-!
# The nearest contacts

`getNearest` looks for the nearest contacts in the first `keyLen` buckets only, as its loop counts bytes where it should count
bits. Contacts that share more of the node's key are left out, and where one of them is among the nearest, the result is wrong
(`getNearest_false`).
-/

namespace Dhtsim

open CallMachine Selection

namespace KademliaNode

/-- The contacts in some of the buckets, but for one key. -/
def contactsIn (n : KademliaNode) (p : Fin keyLenBits → Bool) (exclude : KademliaKey) : List BucketEntry :=
  ((List.finRange keyLenBits).filter p).flatMap (fun i => (n.buckets i).filter (fun e => e.key ≠ exclude))

/-- The result of `getNearest` as it should be: the `count` entries of all buckets that are closest to the target, nearest
first. -/
def IsNearest (n : KademliaNode) (count : Nat) (target exclude : KademliaKey) (result : List BucketEntry) : Prop :=
  IsFirst (fun e => e.key.distanceTo target) count (n.contactsIn (fun _ => true) exclude) result

/-- No contact of the buckets from `keyLen` on is among the nearest: `count` contacts of the others are closer. -/
def nearestAreLow (n : KademliaNode) (count : Nat) (target exclude : KademliaKey) : Bool :=
  (n.contactsIn (fun i => decide (keyLen ≤ i.val)) exclude).all (fun e =>
    count ≤ (n.contactsIn (fun i => decide (i.val < keyLen)) exclude).countP (fun e' => keyDistanceCmp target e'.key e.key))

end KademliaNode

namespace NearestAux

open KademliaNode

variable {n : KademliaNode} {target exclude : KademliaKey}

theorem filter_finRange : (List.finRange keyLenBits).filter (fun i => decide (i.val < keyLen)) =
    (List.finRange keyLen).map (Fin.castLE (by decide)) := by
  decide

/-- The contacts of `getNearest`. -/
theorem low_contacts (n : KademliaNode) (exclude : KademliaKey) :
    n.contactsIn (fun i => decide (i.val < keyLen)) exclude = (List.finRange keyLen).flatMap
      (fun i => (n.buckets (i.castLE (by decide))).filter (fun entry => entry.key ≠ exclude)) := by
  rw [contactsIn, filter_finRange, List.flatMap_map]

/-- The contacts are those of the first `keyLen` buckets and those of the others. -/
theorem contacts_perm (n : KademliaNode) (exclude : KademliaKey) :
    (n.contactsIn (fun i => decide (i.val < keyLen)) exclude ++ n.contactsIn (fun i => decide (keyLen ≤ i.val)) exclude).Perm
      (n.contactsIn (fun _ => true) exclude) := by
  have hsplit := List.filter_append_perm (fun i : Fin keyLenBits => decide (i.val < keyLen)) (List.finRange keyLenBits)
  have hhigh : (fun i : Fin keyLenBits => decide (keyLen ≤ i.val)) = fun i => !decide (i.val < keyLen) := by
    funext i
    rw [← decide_not]
    exact decide_eq_decide.2 not_lt.symm
  rw [hhigh]
  unfold contactsIn
  rw [← List.flatMap_append, List.filter_true]
  exact hsplit.flatMap_right _

/-- The keys of the contacts are unique. -/
theorem contacts_nodup (h : n.storedKeys.Nodup) : ((n.contactsIn (fun _ => true) exclude).map (·.key)).Nodup := by
  have hfilter : n.contactsIn (fun _ => true) exclude =
      ((List.finRange keyLenBits).flatMap n.buckets).filter (fun e => e.key ≠ exclude) := by
    rw [contactsIn, List.filter_true, List.filter_flatMap]
  rw [hfilter]
  exact h.sublist (List.filter_sublist.map _)

end NearestAux

open KademliaNode NearestAux

/-- When no two contacts have the same key, `getNearest` returns the nearest contacts of all buckets exactly when none of those
it leaves out is among them. -/
theorem getNearest_isNearest_iff {Γ : Ctx} {n : KademliaNode} (h : n.storedKeys.Nodup) (count : Nat)
    (target exclude : KademliaKey) :
    n.IsNearest count target exclude (n.getNearest Γ count target exclude) ↔
      n.nearestAreLow count target exclude = true := by
  have hnodup : ((n.contactsIn (fun _ => true) exclude).map (·.key)).Nodup := contacts_nodup h
  rw [← (contacts_perm n exclude).map (·.key) |>.nodup_iff, List.map_append] at hnodup
  obtain ⟨hlow, -, hdisj⟩ := List.nodup_append.1 hnodup
  have hsorted : (sortByDistanceTo Γ target (n.contactsIn (fun i => decide (i.val < keyLen)) exclude)).Pairwise
      (fun a b => a.key.distanceTo target < b.key.distanceTo target) := strictSorted_sortByDistanceTo hlow
  have hperm : (sortByDistanceTo Γ target (n.contactsIn (fun i => decide (i.val < keyLen)) exclude)).Perm
      (n.contactsIn (fun i => decide (i.val < keyLen)) exclude) := Γ.sort_perm _ _
  have hget : n.getNearest Γ count target exclude =
      (sortByDistanceTo Γ target (n.contactsIn (fun i => decide (i.val < keyLen)) exclude)).take count := by
    rw [low_contacts]
    rfl
  have hall := (hperm.append_right _).trans (contacts_perm n exclude)
  have happart : ∀ e ∈ n.contactsIn (fun i => decide (keyLen ≤ i.val)) exclude,
      e ∉ sortByDistanceTo Γ target (n.contactsIn (fun i => decide (i.val < keyLen)) exclude) :=
    fun e he hmem => hdisj _ (List.mem_map_of_mem (hperm.subset hmem)) _ (List.mem_map_of_mem he) rfl
  have hcount : ∀ e : BucketEntry,
      (sortByDistanceTo Γ target (n.contactsIn (fun i => decide (i.val < keyLen)) exclude)).countP
          (fun e' => @decide _ (LinearOrder.toDecidableLT (e'.key.distanceTo target) (e.key.distanceTo target))) =
        (n.contactsIn (fun i => decide (i.val < keyLen)) exclude).countP (fun e' => keyDistanceCmp target e'.key e.key) := by
    intro e
    rw [hperm.countP_eq]
    refine List.countP_congr (fun e' _ => ?_)
    simp only [keyDistanceCmp_eq, decide_eq_true_eq]
  rw [IsNearest, hget, nearestAreLow, List.all_eq_true]
  constructor
  · intro hfirst e he
    refine decide_eq_true ?_
    rw [← hcount e]
    exact (isFirst_append_iff hsorted happart).1 (hfirst.perm hall.symm) e he
  · intro hcond
    refine ((isFirst_append_iff hsorted happart).2 (fun e he => ?_)).perm hall
    rw [hcount e]
    exact of_decide_eq_true (hcond e he)

/-- A node learns of a contact. -/
def learns (address : UInt32) (bytes : List UInt8) (h : bytes.length = keyLen) : List NodeLabel :=
  .enter (.observe address ⟨bytes, h⟩) :: runs 1 1

/-- Of two contacts in the first buckets the nearer one is returned. -/
theorem getNearest_isNearest_sample : ∃ n : KademliaNode, ∃ e ∈ n.buckets ⟨1, by decide⟩,
    n.getNearest .reference 1 .zero .zero = [e] ∧ n.IsNearest 1 .zero .zero [e] := by
  obtain ⟨m, -, hm⟩ := exists_run_of_follow (nodeProgram .reference) (fun _ _ => true) (sampleNode .zero)
    (learns 1 (0x81 :: List.replicate 19 0) rfl ++ learns 2 (0x41 :: List.replicate 19 0) rfl)
    (fun m => decide (m.state.storedKeys.Nodup) && m.state.nearestAreLow 1 .zero .zero &&
      decide (m.state.buckets ⟨1, by decide⟩ = [⟨.starting 0x41, 2, 0⟩]) &&
      decide (m.state.getNearest .reference 1 .zero .zero = [⟨.starting 0x41, 2, 0⟩])) (by decide +kernel)
  simp only [Bool.and_eq_true, decide_eq_true_eq] at hm
  obtain ⟨⟨⟨hkeys, hlow⟩, hbucket⟩, hget⟩ := hm
  refine ⟨m.state, ⟨.starting 0x41, 2, 0⟩, hbucket ▸ List.mem_cons_self, hget, ?_⟩
  rw [← hget]
  exact (getNearest_isNearest_iff hkeys 1 .zero .zero).2 hlow

/-- A node that knows one contact, which shares 20 bits with it, finds none. -/
theorem getNearest_false : ∃ n : KademliaNode, WellPlaced n ∧ n.storedKeys.Nodup ∧
    n.buckets ⟨20, by decide⟩ = [⟨⟨[0, 0, 8] ++ List.replicate 17 0, rfl⟩, 7, 0⟩] ∧
      n.getNearest .reference 1 .zero .zero = [] ∧ ¬n.IsNearest 1 .zero .zero (n.getNearest .reference 1 .zero .zero) := by
  obtain ⟨m, hr, hm⟩ := exists_run_of_follow (nodeProgram .reference) (fun _ _ => true) (sampleNode .zero)
    (learns 7 ([0, 0, 8] ++ List.replicate 17 0) rfl)
    (fun m => decide (m.state.storedKeys.Nodup) &&
      decide (m.state.buckets ⟨20, by decide⟩ = [⟨⟨[0, 0, 8] ++ List.replicate 17 0, rfl⟩, 7, 0⟩]) &&
      decide (m.state.getNearest .reference 1 .zero .zero = []) &&
      decide ((m.state.contactsIn (fun _ => true) .zero).length = 1)) (by decide +kernel)
  simp only [Bool.and_eq_true, decide_eq_true_eq] at hm
  obtain ⟨⟨⟨hkeys, hbucket⟩, hget⟩, hone⟩ := hm
  refine ⟨m.state, (wellPlaced_of_run hr).1.2, hkeys, hbucket, hget, fun hfirst => ?_⟩
  have hlen := hfirst.length
  rw [hget, hone] at hlen
  cases hlen

end Dhtsim
