import Dhtsim.Lemmas.Held
import Dhtsim.Model.Outside

/-!
# The order of a bucket

A bucket is meant to be ordered by the time its entries were last seen, so that `updateOrAddToBucket` pings the one not seen for
the longest time. An observation appends an entry with the time it is, which is the latest. `cbFail` appends the entry it
captured when the ping was sent, and what was seen since may stand before it (`buckets_ordered_false`). The order holds in the
runs whose evictions append an entry no older than the rest.
-/

namespace Dhtsim

open CallMachine KademliaNode

/-- The order of a bucket: no entry was seen after one that stands behind it. -/
def OldestFirst (bucket : List BucketEntry) : Prop := bucket.Pairwise (fun e e' => e.lastSeen ≤ e'.lastSeen)

/-- A tick does not set the time back. -/
def timely (m : NodeConfig) (l : NodeLabel) : Bool :=
  match l, m.stack with
  | .run _, .base (.tick time) :: _ => decide (m.state.epoch ≤ time)
  | _, _ => true

/-- A step that evicts appends an entry no older than the rest of the bucket. -/
def evictsInOrder (m : NodeConfig) (l : NodeLabel) : Bool :=
  match l, m.stack with
  | .run _, .pinged _ (.evict i e) :: _ => (m.state.buckets i).tail.all (fun e' => e'.lastSeen ≤ e.lastSeen)
  | _, _ => true

namespace OrderAux

/-- An entry that was captured to be added later was not seen in the future. -/
def Past (epoch : Time) (fn : PingFn) : Prop := ∀ i e, fn = .evict i e → e.lastSeen ≤ epoch

/-- The buckets of a node are ordered, and nothing in them, or captured to be added to them, is from the future. -/
structure Ordered (n : KademliaNode) : Prop where
  order : ∀ i, OldestFirst (n.buckets i)
  past : ∀ i, ∀ e ∈ n.buckets i, e.lastSeen ≤ n.epoch
  captured : ∀ fn ∈ n.pingFns, Past n.epoch fn

variable {Γ : Ctx} {config : Config} {key : KademliaKey} {offset : Time} {ch : Choice} {c : Call} {n : KademliaNode}
  {p : KademliaNode × List Call} {rest : List Call} {tr : NodeTrace}

theorem oldestFirst_append_singleton {l : List BucketEntry} {e : BucketEntry} :
    OldestFirst (l ++ [e]) ↔ OldestFirst l ∧ ∀ x ∈ l, x.lastSeen ≤ e.lastSeen := by
  simp [OldestFirst, List.pairwise_append]

theorem Past.mono {epoch epoch' : Time} {fn : PingFn} (h : Past epoch fn) (hle : epoch ≤ epoch') : Past epoch' fn :=
  fun i e he => le_trans (h i e he) hle

/-- The time of a node that is ticked in time does not go back. -/
theorem epoch_le (hok : timely ⟨n, c :: rest, tr⟩ (.run ch) = true) (he : exec Γ ch c n = some p) :
    n.epoch ≤ p.1.epoch := by
  rcases exec_epoch he with ⟨time, rfl, -, htime⟩ | htime
  · rw [htime]
    simpa [timely] using hok
  · exact le_of_eq htime.symm

/-- A call that does not evict keeps the buckets ordered; an eviction does exactly when it appends an entry no older than the
rest. -/
theorem exec_order_iff (hn : Ordered n) (he : exec Γ ch c n = some p) :
    (∀ i, OldestFirst (p.1.buckets i)) ↔ evictsInOrder ⟨n, c :: rest, tr⟩ (.run ch) = true := by
  by_cases hc : ∃ ok i e, c = .pinged ok (.evict i e)
  · obtain ⟨ok, i, e, rfl⟩ := hc
    obtain ⟨n', hevict, rfl⟩ := Option.map_eq_some_iff.1 he
    obtain ⟨oldest, tl, hb, rfl⟩ := evict_cases hevict
    have htl : OldestFirst tl := by
      have hi := hn.order i
      rw [hb] at hi
      exact (List.pairwise_cons.1 hi).2
    simp only [evictsInOrder, hb, List.tail_cons, List.all_eq_true, decide_eq_true_eq]
    constructor
    · intro h
      have hi := h i
      rw [buckets_setBucket_self] at hi
      exact (oldestFirst_append_singleton.1 hi).2
    · intro h
      exact setBucket_forall (P := fun _ l => OldestFirst l) hn.order (oldestFirst_append_singleton.2 ⟨htl, h⟩)
  · have hevicts : evictsInOrder ⟨n, c :: rest, tr⟩ (.run ch) = true := by
      unfold evictsInOrder
      split
      · rename_i heq
        cases heq
        exact absurd ⟨_, _, _, rfl⟩ hc
      · rfl
    refine ⟨fun _ => hevicts, fun _ => ?_⟩
    -- what is observed is observed now, and nothing else is from later
    have hboth := exec_buckets_forall (P := fun _ l => OldestFirst l ∧ ∀ e ∈ l, e.lastSeen ≤ n.epoch) he
      (fun i => ⟨hn.order i, hn.past i⟩) ?_ ?_ ?_ ?_
    · exact fun i => (hboth i).1
    · exact fun i l l' hl h => ⟨h.1.sublist hl, fun e he => h.2 e (hl.subset he)⟩
    · rintro a k i l₁ old l₂ - - - ⟨hord, hpast⟩
      have hsub : (l₁ ++ l₂).Sublist (l₁ ++ old :: l₂) := (List.sublist_cons_self old l₂).append_left l₁
      have hle : ∀ e ∈ l₁ ++ l₂, e.lastSeen ≤ n.epoch := fun e he => hpast e (hsub.subset he)
      refine ⟨oldestFirst_append_singleton.2 ⟨hord.sublist hsub, hle⟩, fun e he => ?_⟩
      rcases List.mem_append.1 he with he | he
      · exact hle e he
      · rw [List.mem_singleton.1 he]
    · rintro a k i l - - - - ⟨hord, hpast⟩
      refine ⟨oldestFirst_append_singleton.2 ⟨hord, hpast⟩, fun e he => ?_⟩
      rcases List.mem_append.1 he with he | he
      · exact hpast e he
      · rw [List.mem_singleton.1 he]
    · intro ok i e hd tl hcall
      exact absurd ⟨ok, i, e, hcall⟩ hc

/-- No call puts an entry from the future into a bucket. -/
theorem exec_past (hn : Ordered n) (hc : ∀ fn ∈ c.pingFns, Past n.epoch fn) (he : exec Γ ch c n = some p) :
    ∀ i, ∀ e ∈ p.1.buckets i, e.lastSeen ≤ n.epoch := by
  refine exec_buckets_forall (P := fun _ l => ∀ e ∈ l, e.lastSeen ≤ n.epoch) he hn.past
    (fun i l l' hl h e he => h e (hl.subset he)) ?_ ?_ ?_
  · intro a k i l₁ old l₂ _ _ _ hl e he
    simp only [List.mem_append, List.mem_singleton] at he
    rcases he with (he | he) | rfl
    · exact hl e (List.mem_append_left _ he)
    · exact hl e (List.mem_append_right _ (List.mem_cons_of_mem _ he))
    · exact le_refl _
  · intro a k i l _ _ _ _ hl e he
    simp only [List.mem_append, List.mem_singleton] at he
    rcases he with he | rfl
    · exact hl e he
    · exact le_refl _
  · intro ok i e hd tl hcall hl e' he'
    simp only [List.mem_append, List.mem_singleton] at he'
    rcases he' with he' | rfl
    · exact hl e' (List.mem_cons_of_mem _ he')
    · exact hc _ (by rw [hcall]; exact List.mem_singleton_self _) i e' rfl

/-- A call captures what it observes now, and hands on what was captured. -/
theorem makes_past {x : Call} (hn : Ordered n) (hc : ∀ fn ∈ c.pingFns, Past n.epoch fn) (hx : Makes Γ ch n c x) :
    ∀ fn ∈ x.pingFns, Past n.epoch fn := by
  intro fn hfn
  rcases makes_pingFns hx hfn with hfn | hfn | rfl | ⟨a, k, i, -, -, -, -, rfl⟩
  · exact hn.captured fn hfn
  · exact hc fn hfn
  · intro i e he
    cases he
  · intro i' e he
    cases he
    exact le_refl _

/-- In a run whose ticks are in time and whose evictions are in order the buckets are ordered, and no call captured an entry
from the future. -/
theorem ordered_of_run {m : NodeConfig}
    (h : Run (nodeProgram Γ) (fun m l => (timely m l && evictsInOrder m l) = true) (startNode config key offset) m) :
    Ordered m.state ∧ ∀ c ∈ m.stack, ∀ fn ∈ c.pingFns, Past m.state.epoch fn := by
  refine h.invariant_stack (S := Ordered) (C := fun n c => ∀ fn ∈ c.pingFns, Past n.epoch fn) ?_ ?_ ?_
  · refine ⟨⟨fun i => List.Pairwise.nil, fun i e he => ?_, fun fn hfn => ?_⟩, fun c hc => ?_⟩
    · exact absurd he List.not_mem_nil
    · exact absurd hfn List.not_mem_nil
    · exact absurd hc List.not_mem_nil
  · intro ch c rest n tr n' cs hn hc hrest hok he
    rw [Bool.and_eq_true] at hok
    have hle : n.epoch ≤ n'.epoch := epoch_le hok.1 he
    refine ⟨⟨(exec_order_iff hn he).2 hok.2, fun i e hmem => le_trans (exec_past hn hc he i e hmem) hle, ?_⟩, ?_, ?_⟩
    · intro fn hfn
      rcases exec_pingFns he hfn with hfn | hfn
      · exact (hn.captured fn hfn).mono hle
      · exact (hc fn hfn).mono hle
    · exact fun x hx fn hfn => (makes_past hn hc (exec_makes he x hx) fn hfn).mono hle
    · exact fun x hx fn hfn => (hrest x hx fn hfn).mono hle
  · intro c n stack tr _ _ hc fn hfn i e he
    obtain ⟨f, rfl⟩ := pingFns_of_isEvent (isEvent_of_enters hc) hfn
    cases he

end OrderAux

open OrderAux

/-- Least-recently-seen order, in three parts, for the runs whose ticks are in time and whose evictions append an entry no older
than the rest of the bucket.
1. Every bucket is ordered.
2. The contact that is pinged for a full bucket is the first of the newcomer's bucket, and none of them was seen before it.
3. The condition is exact: a step leads to ordered buckets if and only if it meets it. -/
theorem buckets_ordered {Γ : Ctx} {config : Config} {key : KademliaKey} {offset : Time} {m : NodeConfig}
    (h : Run (nodeProgram Γ) (fun m l => (timely m l && evictsInOrder m l) = true) (startNode config key offset) m) :
    (∀ i, OldestFirst (m.state.buckets i)) ∧
    (∀ a k p b cb, m.state.observe a k = some p → .ping b cb ∈ p.2 → ∃ (i : Fin keyLenBits) (lrs : BucketEntry),
      longestMatchingPrefix m.state.key k = i ∧ (m.state.buckets i)[0]? = some lrs ∧ lrs.address = b ∧
        ∀ e ∈ m.state.buckets i, lrs.lastSeen ≤ e.lastSeen) ∧
    ∀ l m', step (nodeProgram Γ) m l = some m' →
      ((∀ i, OldestFirst (m'.state.buckets i)) ↔ evictsInOrder m l = true) := by
  obtain ⟨hord, hstack⟩ := ordered_of_run h
  refine ⟨hord.order, fun a k p b cb he hping => ?_, fun l m' hs => ?_⟩
  · rcases observe_cases he with ⟨-, rfl⟩ | ⟨i, hi, ⟨_, _, _, -, -, -, rfl⟩ | ⟨-, -, rfl⟩ | ⟨-, -, lrs, rest, hb, rfl⟩⟩
    · cases hping
    · cases hping
    · cases hping
    · cases List.mem_singleton.1 hping
      refine ⟨i, lrs, hi, by rw [hb]; rfl, rfl, fun e hmem => ?_⟩
      have hpair := hord.order i
      rw [hb] at hmem hpair
      rcases List.mem_cons.1 hmem with rfl | hmem
      · exact le_refl _
      · exact (List.pairwise_cons.1 hpair).1 e hmem
  · cases step_of_eq_some hs with
    | run hw he => exact exec_order_iff hord he
    | event hc => exact ⟨fun _ => rfl, fun _ => hord.order⟩
    | reentry hf hc => exact ⟨fun _ => rfl, fun _ => hord.order⟩
    | leave hf => exact ⟨fun _ => rfl, fun _ => hord.order⟩

/-- Four contacts for a bucket of three, of which the first is pinged and does not answer; `seen` happens while it has time
to. -/
def fourthContact (seen : List NodeLabel) : List NodeLabel :=
  [.enter (.observe 1 (.starting 0x81))] ++ runs 1 1 ++ [.enter (.observe 2 (.starting 0x82))] ++ runs 2 1 ++
    [.enter (.observe 4 (.starting 0x84))] ++ runs 3 1 ++ [.enter (.observe 3 (.starting 0x83))] ++ runs 4 3 ++
    [.enter (.tick 2)] ++ runs 7 8 ++ [.enter (.tick 3)] ++ runs 15 7 ++ seen ++ [.enter (.tick 6)] ++ runs 24 10

/-- An eviction in order, as nothing was seen since the ping. -/
theorem buckets_ordered_sample : ∃ m : NodeConfig,
    m.state.buckets ⟨0, by decide⟩ = [⟨.starting 0x84, 4, 0⟩, ⟨.starting 0x83, 3, 0⟩] ∧ ∀ i, OldestFirst (m.state.buckets i) := by
  obtain ⟨m, hr, hm⟩ := exists_run_of_follow (nodeProgram .reference) (fun m l => timely m l && evictsInOrder m l)
    (startNode ⟨3, 10000, 1000⟩ .zero 700) (fourthContact [])
    (fun m => decide (m.state.buckets ⟨0, by decide⟩ = [⟨.starting 0x84, 4, 0⟩, ⟨.starting 0x83, 3, 0⟩])) (by decide +kernel)
  exact ⟨m, by simpa using hm, (buckets_ordered hr).1⟩

/-- A bucket out of order: the other contacts of the bucket are seen at time 3, before the ping of the first one fails at time
6, and the newcomer is added as seen at time 0. -/
theorem buckets_ordered_false : ∃ m, Run (nodeProgram .reference) (fun m l => (freshTags m l && timely m l) = true)
    (startNode ⟨3, 10000, 1000⟩ .zero 700) m ∧ m.stack = [] ∧ m.state.dead = false ∧
    m.state.buckets ⟨0, by decide⟩ = [⟨.starting 0x84, 4, 3⟩, ⟨.starting 0x83, 3, 0⟩] ∧
    ¬∀ i, OldestFirst (m.state.buckets i) := by
  obtain ⟨m, hr, hm⟩ := exists_run_of_follow (nodeProgram .reference) (fun m l => freshTags m l && timely m l)
    (startNode ⟨3, 10000, 1000⟩ .zero 700)
    (fourthContact ([.enter (.observe 2 (.starting 0x82))] ++ runs 22 1 ++ [.enter (.observe 4 (.starting 0x84))] ++ runs 23 1))
    (fun m => m.stack.isEmpty && !m.state.dead &&
      decide (m.state.buckets ⟨0, by decide⟩ = [⟨.starting 0x84, 4, 3⟩, ⟨.starting 0x83, 3, 0⟩])) (by decide +kernel)
  simp only [Bool.and_eq_true, List.isEmpty_iff, Bool.not_eq_true', decide_eq_true_eq] at hm
  refine ⟨m, hr, hm.1.1, hm.1.2, hm.2, fun hord => ?_⟩
  have hi := hord ⟨0, by decide⟩
  rw [hm.2] at hi
  exact absurd ((List.pairwise_cons.1 hi).1 _ List.mem_cons_self) (by decide)

end Dhtsim
