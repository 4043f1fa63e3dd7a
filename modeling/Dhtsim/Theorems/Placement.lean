import Dhtsim.Lemmas.Held
import Dhtsim.Model.Outside

/-!
# Placement

Where the entries of the buckets are: the index of the bucket is the length of the prefix that the entry's key shares with
the node's own. Entries arrive by observation, where the index is computed, and by eviction, where the index was captured
when the ping of the oldest entry was sent; the invariant speaks of both.
-/

namespace Dhtsim

open CallMachine KademliaNode

/-- An entry that was captured to be added later was captured with the index of its bucket. -/
def PingFn.Placed (key : KademliaKey) (fn : PingFn) : Prop :=
  ∀ i e, fn = .evict i e → longestMatchingPrefix key e.key = i

/-- The buckets of a node are those of its key: each entry is in its bucket, or captured with the index of its bucket, and
no bucket holds more than `k`. -/
structure WellPlaced (n : KademliaNode) : Prop where
  place : ∀ i, ∀ e ∈ n.buckets i, longestMatchingPrefix n.key e.key = i
  capacity : ∀ i, (n.buckets i).length ≤ n.config.k
  captured : ∀ fn ∈ n.pingFns, fn.Placed n.key

namespace PlacementAux

variable {Γ : Ctx} {ch : Choice} {c : Call} {n : KademliaNode} {p : KademliaNode × List Call}

/-- A call keeps each entry in its bucket. -/
theorem exec_place (h : exec Γ ch c n = some p) (hw : WellPlaced n) (hc : ∀ fn ∈ c.pingFns, fn.Placed n.key) :
    ∀ j, ∀ e ∈ p.1.buckets j, longestMatchingPrefix n.key e.key = j := by
  refine exec_buckets_forall (P := fun j l => ∀ e ∈ l, longestMatchingPrefix n.key e.key = j) h hw.place
    (fun i l l' hl h e he => h e (hl.subset he)) ?_ ?_ ?_
  · intro a k i l₁ old l₂ _ hi _ hl e he
    simp only [List.mem_append, List.mem_singleton] at he
    rcases he with (he | he) | rfl
    · exact hl e (List.mem_append_left _ he)
    · exact hl e (List.mem_append_right _ (List.mem_cons_of_mem _ he))
    · exact hi
  · intro a k i l _ hi _ _ hl e he
    simp only [List.mem_append, List.mem_singleton] at he
    rcases he with he | rfl
    · exact hl e he
    · exact hi
  · intro ok i e hd tl hcall hl e' he'
    simp only [List.mem_append, List.mem_singleton] at he'
    rcases he' with he' | rfl
    · exact hl e' (List.mem_cons_of_mem _ he')
    · exact hc _ (by rw [hcall]; exact List.mem_singleton_self _) i e' rfl

/-- A call keeps every bucket within `k`: an observation adds only where there is room, an eviction removes one and adds
one. -/
theorem exec_capacity (h : exec Γ ch c n = some p) (hw : WellPlaced n) :
    ∀ j, (p.1.buckets j).length ≤ n.config.k := by
  refine exec_buckets_forall (P := fun _ l => l.length ≤ n.config.k) h hw.capacity
    (fun i l l' hl h => le_trans hl.length_le h) ?_ ?_ ?_
  · intro a k i l₁ old l₂ _ _ _ hl
    simp only [List.length_append, List.length_cons, List.length_nil] at hl ⊢
    omega
  · intro a k i l _ _ _ hlen _
    simp only [List.length_append, List.length_cons, List.length_nil]
    omega
  · intro ok i e hd tl _ hl
    simp only [List.length_append, List.length_cons, List.length_nil] at hl ⊢
    omega

/-- A call keeps the buckets well placed, and what it leaves to run is captured with the right index too. -/
theorem exec_wellPlaced (h : exec Γ ch c n = some p) (hw : WellPlaced n) (hc : ∀ fn ∈ c.pingFns, fn.Placed n.key) :
    WellPlaced p.1 ∧ ∀ x ∈ p.2, ∀ fn ∈ x.pingFns, fn.Placed n.key := by
  have hid := exec_identity h
  simp only [identity, Prod.mk.injEq] at hid
  obtain ⟨hkey, hconfig, -⟩ := hid
  refine ⟨⟨?_, ?_, ?_⟩, ?_⟩
  · rw [hkey]; exact exec_place h hw hc
  · rw [hconfig]; exact exec_capacity h hw
  · intro fn hfn
    rw [hkey]
    rcases exec_pingFns h hfn with hfn | hfn
    · exact hw.captured fn hfn
    · exact hc fn hfn
  · intro x hx fn hfn
    rcases makes_pingFns (exec_makes h x hx) hfn with hfn | hfn | rfl | ⟨a, k, i, -, hi, -, -, rfl⟩
    · exact hw.captured fn hfn
    · exact hc fn hfn
    · intro i e he
      cases he
    · intro i' e he
      cases he
      exact hi

end PlacementAux

open PlacementAux in
/-- In every configuration that a run of a node leads to, its key and its configuration are those it was made with, its
buckets are well placed, and so is every entry that a call on the stack captured. -/
theorem wellPlaced_of_run {Γ : Ctx} {config : Config} {key : KademliaKey} {offset : Time}
    {ok : NodeConfig → NodeLabel → Prop} {m : NodeConfig}
    (h : Run (nodeProgram Γ) ok (startNode config key offset) m) :
    (m.state.identity = (key, config, offset) ∧ WellPlaced m.state) ∧
      ∀ c ∈ m.stack, ∀ fn ∈ c.pingFns, fn.Placed key := by
  refine h.invariant_stack (S := fun n => n.identity = (key, config, offset) ∧ WellPlaced n)
    (C := fun _ c => ∀ fn ∈ c.pingFns, fn.Placed key) ?_ ?_ ?_
  · refine ⟨⟨rfl, ⟨?_, ?_, ?_⟩⟩, ?_⟩
    · intro i e he
      exact absurd he List.not_mem_nil
    · intro i
      exact Nat.zero_le _
    · intro fn hfn
      exact absurd hfn List.not_mem_nil
    · intro c hc
      exact absurd hc List.not_mem_nil
  · rintro ch c rest n tr n' cs ⟨hid, hw⟩ hc hrest - he
    have hkey : n.key = key := congrArg (·.1) hid
    have hstep := exec_wellPlaced he hw (hkey ▸ hc)
    rw [hkey] at hstep
    exact ⟨⟨(exec_identity he).trans hid, hstep.1⟩, hstep.2, hrest⟩
  · intro c n stack tr _ _ hc fn hfn
    obtain ⟨f, rfl⟩ := pingFns_of_isEvent (isEvent_of_enters hc) hfn
    intro i e he
    cases he

/-- Placement, capacity and self-exclusion, in three parts, in every reachable state.
1. An entry of bucket `i` agrees with the node's key on the first `i` bits and differs on the next.
2. No bucket holds more than `k` entries.
3. The node's own key is in no bucket. -/
theorem placement {Γ : Ctx} {config : Config} {key : KademliaKey} {offset : Time} {m : NodeConfig}
    (h : Run (nodeProgram Γ) anyStep (startNode config key offset) m) (i : Fin keyLenBits) :
    (∀ e ∈ m.state.buckets i, (∀ j < i.val, e.key.bit j = key.bit j) ∧ e.key.bit i ≠ key.bit i) ∧
    (m.state.buckets i).length ≤ config.k ∧
    ∀ e ∈ m.state.buckets i, e.key ≠ key := by
  obtain ⟨⟨hid, hw⟩, -⟩ := wellPlaced_of_run h
  simp only [identity, Prod.mk.injEq] at hid
  obtain ⟨hkey, hconfig, -⟩ := hid
  have hplace : ∀ e ∈ m.state.buckets i, longestMatchingPrefix key e.key = i := hkey ▸ hw.place i
  have hdiffer : ∀ e ∈ m.state.buckets i, e.key.bit i ≠ key.bit i := by
    intro e he
    have hlt : longestMatchingPrefix key e.key < keyLenBits := hplace e he ▸ i.isLt
    have hne := bit_ne_of_lt hlt
    rw [hplace e he] at hne
    exact hne.symm
  refine ⟨fun e he => ⟨fun j hj => ?_, hdiffer e he⟩, hconfig ▸ hw.capacity i, ?_⟩
  · exact (bit_eq_of_lt (hplace e he ▸ hj)).symm
  · intro e he hk
    exact hdiffer e he (by rw [hk])

/-- A run: four contacts are seen, of which the third shares a longer prefix and the fourth is the node itself. -/
theorem placement_sample : ∃ m, Run (nodeProgram .reference) anyStep (startNode ⟨2, 10000, 1000⟩ .zero 700) m ∧
    m.state.buckets ⟨0, by decide⟩ = [⟨.starting 0x81, 1, 0⟩, ⟨.starting 0x82, 2, 0⟩] ∧
    m.state.buckets ⟨1, by decide⟩ = [⟨.starting 0x41, 3, 0⟩] ∧
    ∀ i, (m.state.buckets i).length ≤ 2 ∧ ∀ e ∈ m.state.buckets i, e.key ≠ .zero := by
  obtain ⟨m, hr, hm⟩ := exists_run_of_follow (nodeProgram .reference) (fun _ _ => true)
    (startNode ⟨2, 10000, 1000⟩ .zero 700) ([.enter (.observe 1 (.starting 0x81))] ++ runs 1 1 ++
      [.enter (.observe 2 (.starting 0x82))] ++ runs 2 1 ++ [.enter (.observe 3 (.starting 0x41))] ++ runs 3 1 ++ [.enter (.observe 4 .zero)] ++ runs 4 1)
    (fun m => decide (m.state.buckets ⟨0, by decide⟩ = [⟨.starting 0x81, 1, 0⟩, ⟨.starting 0x82, 2, 0⟩]) &&
      decide (m.state.buckets ⟨1, by decide⟩ = [⟨.starting 0x41, 3, 0⟩])) (by decide +kernel)
  simp only [Bool.and_eq_true, decide_eq_true_eq] at hm
  have hr' := run_anyStep hr
  exact ⟨m, hr', hm.1, hm.2, fun i => (placement hr' i).2⟩

end Dhtsim
