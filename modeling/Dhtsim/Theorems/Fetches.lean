import Dhtsim.Lemmas.Fetches
import Dhtsim.Theorems.Experiment

/-!
# The books of an experiment

Every line `[E] S` and `[E] F` stands for one fetch that was answered, and no fetch has two. A slot waits exactly when its node was
asked once more than it answered, so a fetch that has no line belongs to a node that was killed, or is the only one that its node
has open (`fetches_accounted`). The latency in a line is the number of lines `[E] T` between the fetch and the line
(`latencies_told`).
-/

namespace Dhtsim

open CallMachine

/-- A lambda of a fetch that a call runs: in which node, of which fetch, and what was found. -/
def outcomeOf {N : Nat} : ProgramCall N → List (Fin N × UserFn × Option (List UInt8))
  | .inside (.app i (.fetched k value)) => [(i, k, value)]
  | _ => []

/-- The lambdas of fetches that ran, the last one first. -/
def outcomes {N : Nat} (m : ExperimentConfig N) : List (Fin N × UserFn × Option (List UInt8)) :=
  m.trace.flatMap (fun e => outcomeOf e.1)

/-- How many fetches a node was asked for, and how many it answered. -/
def asked {N : Nat} (i : Fin N) (m : ExperimentConfig N) : Nat := m.state.2.fetches.countP (fun f => decide (f.fetcher = i))

def replied {N : Nat} (i : Fin N) (m : ExperimentConfig N) : Nat := (outcomes m).countP (fun o => decide (o.1 = i))

/-- The line of a fetch. -/
def Fetch.line {N : Nat} (f : Fetch N) (value : Option (List UInt8)) (latency : Time) : Line :=
  if value.isSome then .found f.nodeIndex f.targetDataIndex latency else .failed f.nodeIndex f.targetDataIndex latency

def Line.isTransferred : Line → Bool
  | .transferred _ _ => true
  | _ => false

def Line.isOutcome : Line → Bool
  | .found _ _ _ => true
  | .failed _ _ _ => true
  | _ => false

/-- The lines `[E] S` and `[E] F` of a transcript, each with the number of lines `[E] T` before it. -/
def told : List Line → List (Line × Nat)
  | [] => []
  | line :: rest => if line.isOutcome then (line, rest.countP Line.isTransferred) :: told rest else told rest

/-- The books of an experiment are right. -/
structure Booked {N : Nat} (m : ExperimentConfig N) : Prop where
  nodup : m.state.2.nodes.Nodup
  /-- A node that is in a slot was asked in this slot. -/
  slot : ∀ n, ∀ f ∈ m.state.2.fetches, m.state.2.nodes[n]? = some f.fetcher → f.nodeIndex = n
  /-- A node that was asked is in a slot or dead. -/
  kept : ∀ f ∈ m.state.2.fetches, f.fetcher ∈ m.state.2.nodes ∨ (m.state.1.network.applications f.fetcher).dead = true
  balance : ∀ (n : Nat) i, m.state.2.nodes[n]? = some i →
    asked i m = replied i m + if m.state.2.waiting[n]? = some true then 1 else 0
  idle : m.state.2.waiting = [] → m.state.2.fetches = []

/-- In the run from `m₀` to `m`, fetch `k` was started by a step before which `since` lines `[E] T` had been printed. -/
def StartedAfter {N : Nat} (Γ : Ctx) (D : Durations) (m₀ m : ExperimentConfig N) (k : UserFn) (since : Nat) : Prop :=
  ∃ m₁ l m₂, Run (experimentProgram Γ D N) anyStep m₀ m₁ ∧ Step (experimentProgram Γ D N) m₁ l m₂ ∧
    Run (experimentProgram Γ D N) anyStep m₂ m ∧ m₁.state.2.fetches.length = k ∧ m₂.state.2.fetches.length = k + 1 ∧
    m₁.state.2.transcript.countP Line.isTransferred = since

/-- A line, after so many lines `[E] T`, tells of a lambda that ran, in the run from `m₀` to `m`. -/
def Tells {N : Nat} (Γ : Ctx) (D : Durations) (m₀ m : ExperimentConfig N) (line : Line × Nat)
    (o : Fin N × UserFn × Option (List UInt8)) : Prop :=
  ∃ f since, m.state.2.fetches[o.2.1]? = some f ∧ f.fetcher = o.1 ∧ f.now = UInt64.ofNat since ∧ since ≤ line.2 ∧
    StartedAfter Γ D m₀ m o.2.1 since ∧ line.1 = f.line o.2.2 (UInt64.ofNat (line.2 - since))

/-- The transcript tells of every lambda that ran. -/
structure Told {N : Nat} (Γ : Ctx) (D : Durations) (m₀ m : ExperimentConfig N) : Prop where
  epoch : m.state.1.network.epoch = UInt64.ofNat (m.state.2.transcript.countP Line.isTransferred)
  since : ∀ k f, m.state.2.fetches[k]? = some f → ∃ e, f.now = UInt64.ofNat e ∧
    e ≤ m.state.2.transcript.countP Line.isTransferred ∧ StartedAfter Γ D m₀ m k e
  lines : List.Forall₂ (Tells Γ D m₀ m) (told m.state.2.transcript) (outcomes m)

namespace FetchesAux

variable {N : Nat} {Γ : Ctx} {D : Durations} {nNodes : Nat} {config : Config} {key : Fin N → KademliaKey} {offset : Fin N → Time}
  {limit : UInt32} {m m' : ExperimentConfig N} {l : ExperimentLabel N} {ok : ExperimentConfig N → ExperimentLabel N → Prop}
  {i : Fin N} {k : UserFn}

/-! ## No node answers more than it was asked for -/

theorem fetchedBy_eq (x : ProgramCall N) : fetchedBy x = (outcomeOf x).map (fun o => (o.1, o.2.1)) := by
  cases x with
  | inside y => cases y with
    | app j c => cases c <;> rfl
    | _ => rfl
  | _ => rfl

/-- The answers are to fetches, each to one of its own. -/
theorem outcomes_subperm (h : Run (experimentProgram Γ D N) ok (startExperiment config key offset limit nNodes) m) :
    ((outcomes m).map (fun o => (o.1, o.2.1))).Subperm (started m.state.2.fetches) := by
  refine List.subperm_ext_iff.2 (fun x _ => ?_)
  refine Nat.le_trans ?_ (fetched_le_started h x.1 x.2)
  have heq : (outcomes m).map (fun o => (o.1, o.2.1)) = m.trace.flatMap (fun e => fetchedBy e.1) := by
    rw [outcomes, List.map_flatMap]
    exact List.flatMap_congr (fun e _ => (fetchedBy_eq e.1).symm)
  rw [heq, tally, List.count_append]
  exact Nat.le_add_right _ _

theorem map_snd_started (fetches : List (Fetch N)) : (started fetches).map Prod.snd = List.range fetches.length := by
  rw [started, List.map_map]
  exact (List.zipIdx_map_snd 0 fetches).trans (List.range_eq_range').symm

theorem mem_started {fetches : List (Fetch N)} : (i, k) ∈ started fetches ↔ ∃ f, fetches[k]? = some f ∧ f.fetcher = i := by
  rw [started, List.mem_map]
  constructor
  · rintro ⟨⟨f, j⟩, hf, heq⟩
    cases heq
    exact ⟨f, List.mem_zipIdx_iff_getElem?.1 hf, rfl⟩
  · rintro ⟨f, hf, rfl⟩
    exact ⟨(f, k), List.mem_zipIdx_iff_getElem?.2 hf, rfl⟩

theorem countP_started (fetches : List (Fetch N)) (i : Fin N) :
    (started fetches).countP (fun x => decide (x.1 = i)) = fetches.countP (fun f => decide (f.fetcher = i)) := by
  have hmap : fetches = fetches.zipIdx.map Prod.fst := (List.zipIdx_map_fst 0 fetches).symm
  rw [started, List.countP_map]
  conv_rhs => rw [hmap, List.countP_map]
  rfl

theorem replied_le (h : Run (experimentProgram Γ D N) ok (startExperiment config key offset limit nNodes) m) :
    replied i m ≤ asked i m := by
  have hle := (outcomes_subperm h).countP_le (fun x => decide (x.1 = i))
  rw [countP_started, List.countP_map] at hle
  exact hle

/-- Of a lambda that runs there is a fetch of its node. -/
theorem fetch_of_outcome (h : Run (experimentProgram Γ D N) ok (startExperiment config key offset limit nNodes) m)
    {r : NetworkChoice × ExperimentChoice} {v : Option (List UInt8)} (hmem : (.inside (.app i (.fetched k v)), r) ∈ m.trace) :
    ∃ f, m.state.2.fetches[k]? = some f ∧ f.fetcher = i := by
  refine mem_started.1 ((outcomes_subperm h).subset ?_)
  exact List.mem_map.2 ⟨(i, k, v), List.mem_flatMap.2 ⟨_, hmem, List.mem_singleton_self _⟩, rfl⟩

/-! ## What a step does to the books -/

/-- A call of the network runs a lambda of a fetch, or ends a tick, or changes nothing of the experiment. -/
theorem watch_cases (x : NetworkCall N) (s : RecordedNetwork N) (t : Experiment N) :
    (∃ i k v f, x = .app i (.fetched k v) ∧ t.fetches[k]? = some f ∧ Experiment.watch x s t =
      { t with waiting := t.waiting.set f.nodeIndex false
               transcript := f.line v (s.network.epoch - f.now) :: t.transcript }) ∨
    (x = .endTick ∧ Experiment.watch x s t = t.print (.transferred s.network.epoch s.totalTransferred)) ∨
    (x ≠ .endTick ∧ (∀ i k v, x = .app i (.fetched k v) → t.fetches[k]? = none) ∧ Experiment.watch x s t = t) := by
  by_cases hx : ∃ i k v, x = .app i (.fetched k v)
  · obtain ⟨i, k, v, rfl⟩ := hx
    cases hf : t.fetches[k]? with
    | none =>
      refine Or.inr (Or.inr ⟨by rintro ⟨⟩, ?_, ?_⟩)
      · rintro j k' v' heq
        cases heq
        exact hf
      · simp only [Experiment.watch, hf]
    | some f =>
      refine Or.inl ⟨i, k, v, f, rfl, hf, ?_⟩
      cases v with
      | none => simp [Experiment.watch, hf, Experiment.recordFail, Experiment.print, Fetch.line]
      | some v => simp [Experiment.watch, hf, Experiment.recordFind, Experiment.print, Fetch.line]
  · have hne : ∀ i k v, x ≠ .app i (.fetched k v) := fun i k v h => hx ⟨i, k, v, h⟩
    by_cases hend : x = .endTick
    · subst hend
      exact Or.inr (Or.inl ⟨rfl, rfl⟩)
    · refine Or.inr (Or.inr ⟨hend, fun i k v h => absurd h (hne i k v), ?_⟩)
      unfold Experiment.watch
      split
      · exact absurd rfl (hne _ _ _)
      · exact absurd rfl hend
      · rfl

theorem outcomeOf_of_isUserCode {x : NetworkCall N} (h : x.isUserCode = true) : outcomeOf (.inside x) = [] := by
  cases x with
  | app i c => cases c <;> first | rfl | cases h
  | _ => cases h

/-- Only the end of a tick changes the epoch of a network. -/
theorem epoch_of_exec {ch : NetworkChoice} {w : CentralizedNetwork N} {x : NetworkCall N}
    {p : CentralizedNetwork N × List (NetworkCall N)} (he : CentralizedNetwork.exec Γ ch x w = some p) (hx : x ≠ .endTick) :
    p.1.epoch = w.epoch := by
  have hchanges := CentralizedNetwork.exec_changes he
  generalize p.1 = w' at hchanges
  cases hchanges with
  | endTick => exact absurd rfl hx
  | _ => rfl

/-- A call of the network that ran answered a fetch of its node, or changed nothing of the experiment but the time. -/
theorem outcome_cases {x : NetworkCall N} {r : NetworkChoice × ExperimentChoice} {s : RecordedNetwork N × Experiment N}
    {S : RecordedNetwork N} {cs : List (ProgramCall N)} {tr : List (ProgramCall N × NetworkChoice × ExperimentChoice)}
    (hr : Run (experimentProgram Γ D N) ok (startExperiment config key offset limit nNodes)
      ⟨(S, Experiment.watch x s.1 s.2), cs, (.inside x, r) :: tr⟩) :
    (∃ i k v f, x = .app i (.fetched k v) ∧ s.2.fetches[k]? = some f ∧ f.fetcher = i ∧ Experiment.watch x s.1 s.2 =
      { s.2 with waiting := s.2.waiting.set f.nodeIndex false
                 transcript := f.line v (s.1.network.epoch - f.now) :: s.2.transcript }) ∨
    outcomeOf (.inside x) = [] ∧
      (x = .endTick ∧ Experiment.watch x s.1 s.2 = s.2.print (.transferred s.1.network.epoch s.1.totalTransferred) ∨
        x ≠ .endTick ∧ Experiment.watch x s.1 s.2 = s.2) := by
  have hfetch : ∀ i k v, x = .app i (.fetched k v) → ∃ f, s.2.fetches[k]? = some f ∧ f.fetcher = i := by
    rintro i k v rfl
    have hfetch := fetch_of_outcome hr (i := i) (k := k) (v := v) List.mem_cons_self
    exact (congrArg (fun l : List (Fetch N) => ∃ f, l[k]? = some f ∧ f.fetcher = i) (watch_fetches _ s.1 s.2).1).mp hfetch
  rcases watch_cases x s.1 s.2 with ⟨i, k, v, f, rfl, hf, hwatch⟩ | ⟨rfl, hwatch⟩ | ⟨hend, hnone, hwatch⟩
  · obtain ⟨f', hf', hi⟩ := hfetch i k v rfl
    obtain rfl := Option.some.inj (hf'.symm.trans hf)
    exact Or.inl ⟨i, k, v, f', rfl, hf, hi, hwatch⟩
  · exact Or.inr ⟨rfl, Or.inl ⟨rfl, hwatch⟩⟩
  · refine Or.inr ⟨?_, Or.inr ⟨hend, hwatch⟩⟩
    cases x with
    | app i c =>
      cases c with
      | fetched k v =>
        obtain ⟨f, hf, -⟩ := hfetch i k v rfl
        exact absurd hf (by rw [hnone i k v rfl]; rintro ⟨⟩)
      | _ => rfl
    | _ => rfl

/-- A step that leaves the slots and the fetches as they are. -/
theorem booked_congr (hI : Booked m) (hnodes : m'.state.2.nodes = m.state.2.nodes)
    (hwaiting : m'.state.2.waiting = m.state.2.waiting) (hfetches : m'.state.2.fetches = m.state.2.fetches)
    (hdead : ∀ i, (m.state.1.network.applications i).dead = true → (m'.state.1.network.applications i).dead = true)
    (hreplied : ∀ i, replied i m' = replied i m) : Booked m' := by
  refine ⟨hnodes ▸ hI.nodup, ?_, ?_, ?_, ?_⟩
  · rw [hfetches, hnodes]
    exact hI.slot
  · rw [hfetches, hnodes]
    exact fun f hf => (hI.kept f hf).imp_right (hdead _)
  · intro n i hi
    rw [hnodes] at hi
    rw [asked, hfetches, hreplied, hwaiting]
    exact hI.balance n i hi
  · rw [hwaiting, hfetches]
    exact hI.idle

/-- While nobody was asked the books are right. -/
theorem Booked.of_nil (h : Run (experimentProgram Γ D N) ok (startExperiment config key offset limit nNodes) m)
    (hnodup : m.state.2.nodes.Nodup) (hfetches : m.state.2.fetches = []) (hwaiting : ∀ n : Nat, m.state.2.waiting[n]? ≠ some true) :
    Booked m where
  nodup := hnodup
  slot n f hf := by
    rw [hfetches] at hf
    cases hf
  kept f hf := by
    rw [hfetches] at hf
    cases hf
  balance n i _ := by
    have hasked : asked i m = 0 := by rw [asked, hfetches]; rfl
    have hreplied : replied i m = 0 := Nat.le_zero.1 (hasked ▸ replied_le h)
    rw [hasked, hreplied, if_neg (hwaiting n)]
  idle _ := hfetches

/-- A lambda of a fetch that runs: its slot waited, and waits no more. -/
theorem booked_fetched (hr : Run (experimentProgram Γ D N) ok (startExperiment config key offset limit nNodes) m')
    (hI : Booked m) {f : Fetch N} (hf : f ∈ m.state.2.fetches) (hlives : f.fetcher ∈ m.state.2.nodes)
    (hnodes : m'.state.2.nodes = m.state.2.nodes) (hfetches : m'.state.2.fetches = m.state.2.fetches)
    (hwaiting : m'.state.2.waiting = m.state.2.waiting.set f.nodeIndex false)
    (hdead : ∀ i, (m.state.1.network.applications i).dead = true → (m'.state.1.network.applications i).dead = true)
    (hreplied : ∀ i, replied i m' = replied i m + if f.fetcher = i then 1 else 0) : Booked m' := by
  obtain ⟨n, hn⟩ := List.mem_iff_getElem?.1 hlives
  obtain rfl := hI.slot n f hf hn
  have hasked : ∀ i, asked i m' = asked i m := fun i => by rw [asked, hfetches, asked]
  have hwaits : m.state.2.waiting[f.nodeIndex]? = some true := by
    have hle := replied_le (i := f.fetcher) hr
    have hbalance := hI.balance f.nodeIndex f.fetcher hn
    rw [hasked, hreplied, if_pos rfl] at hle
    by_contra hne
    rw [if_neg hne] at hbalance
    omega
  refine ⟨hnodes ▸ hI.nodup, ?_, ?_, ?_, ?_⟩
  · rw [hfetches, hnodes]
    exact hI.slot
  · rw [hfetches, hnodes]
    exact fun g hg => (hI.kept g hg).imp_right (hdead _)
  · intro k i hi
    rw [hnodes] at hi
    rw [hasked, hreplied, hwaiting, hI.balance k i hi, List.getElem?_set]
    by_cases hk : f.nodeIndex = k
    · subst hk
      obtain rfl := Option.some.inj (hn.symm.trans hi)
      rw [if_pos hwaits, if_pos rfl, if_pos rfl]
      split <;> simp
    · have hne : f.fetcher ≠ i := by
        rintro rfl
        exact hk ((List.getElem?_inj (List.getElem?_eq_some_iff.1 hn).1 hI.nodup).1 (hn.trans hi.symm))
      rw [if_neg hk, if_neg hne, Nat.add_zero]
  · intro h
    rw [hwaiting, List.set_eq_nil_iff] at h
    rw [h] at hwaits
    cases hwaits

/-- A fetch of a node that waits for nothing. -/
theorem booked_search (hI : Booked m) {f : Fetch N}
    (hnode : m.state.2.nodes[f.nodeIndex]? = some f.fetcher) (hidle : m.state.2.waiting[f.nodeIndex]? = some false)
    (hnodes : m'.state.2.nodes = m.state.2.nodes) (hfetches : m'.state.2.fetches = m.state.2.fetches ++ [f])
    (hwaiting : m'.state.2.waiting = m.state.2.waiting.set f.nodeIndex true)
    (happs : m'.state.1.network.applications = m.state.1.network.applications)
    (hreplied : ∀ i, replied i m' = replied i m) : Booked m' := by
  have hslot : ∀ k, m.state.2.nodes[k]? = some f.fetcher → f.nodeIndex = k := fun k hk =>
    (List.getElem?_inj (List.getElem?_eq_some_iff.1 hnode).1 hI.nodup).1 (hnode.trans hk.symm)
  have hasked : ∀ i, asked i m' = asked i m + if f.fetcher = i then 1 else 0 := by
    intro i
    rw [asked, hfetches, List.countP_append, asked]
    by_cases hi : f.fetcher = i <;> simp [hi]
  refine ⟨hnodes ▸ hI.nodup, ?_, ?_, ?_, ?_⟩
  · intro k g hg hk
    rw [hnodes] at hk
    rw [hfetches] at hg
    rcases List.mem_append.1 hg with hg | hg
    · exact hI.slot k g hg hk
    · rw [List.mem_singleton.1 hg] at hk ⊢
      exact hslot k hk
  · intro g hg
    rw [hfetches] at hg
    rw [hnodes, happs]
    rcases List.mem_append.1 hg with hg | hg
    · exact hI.kept g hg
    · rw [List.mem_singleton.1 hg]
      exact Or.inl (List.mem_of_getElem? hnode)
  · intro k i hi
    rw [hnodes] at hi
    have hbalance := hI.balance k i hi
    rw [hasked, hreplied, hwaiting, hbalance, List.getElem?_set]
    by_cases hk : f.nodeIndex = k
    · subst hk
      obtain rfl := Option.some.inj (hnode.symm.trans hi)
      have hlt := (List.getElem?_eq_some_iff.1 hidle).1
      rw [if_pos rfl, if_pos rfl, if_pos hlt, if_pos rfl, hidle, if_neg (by simp)]
    · have hne : f.fetcher ≠ i := by
        rintro rfl
        exact hk (hslot k hi)
      rw [if_neg hk, if_neg hne, Nat.add_zero]
  · intro h
    rw [hwaiting, List.set_eq_nil_iff] at h
    rw [h] at hidle
    cases hidle

/-- A new node in the slot of one that was killed. -/
theorem booked_install (hr : Run (experimentProgram Γ D N) ok (startExperiment config key offset limit nNodes) m')
    (hI : Booked m) {v : Nat} {new old : Fin N} (hold : m.state.2.nodes[v]? = some old)
    (hdies : (m.state.1.network.applications old).dead = true) (hfresh : new ∉ m.state.2.nodes)
    (hlives : (m.state.1.network.applications new).dead = false)
    (hnodes : m'.state.2.nodes = m.state.2.nodes.set v new) (hfetches : m'.state.2.fetches = m.state.2.fetches)
    (hwaiting : m'.state.2.waiting = m.state.2.waiting.set v false)
    (happs : m'.state.1.network.applications = m.state.1.network.applications)
    (hreplied : ∀ i, replied i m' = replied i m) : Booked m' := by
  have hmem := Outline.mem_set (o := outline m.state) hI.nodup hold new
  have hnone : ∀ f ∈ m.state.2.fetches, f.fetcher ≠ new := by
    rintro f hf rfl
    rcases hI.kept f hf with h | h
    · exact hfresh h
    · exact Bool.noConfusion (hlives.symm.trans h)
  have hasked : ∀ i, asked i m' = asked i m := fun i => by rw [asked, hfetches, asked]
  refine ⟨hnodes ▸ Outline.nodup_set (o := outline m.state) hI.nodup hold hfresh, ?_, ?_, ?_, ?_⟩
  · intro k f hf hk
    rw [hfetches] at hf
    rw [hnodes, List.getElem?_set] at hk
    split at hk
    · split at hk
      · exact absurd (Option.some.inj hk).symm (hnone f hf)
      · cases hk
    · exact hI.slot k f hf hk
  · intro f hf
    rw [hfetches] at hf
    rw [hnodes, happs]
    rcases hI.kept f hf with h | h
    · by_cases heq : f.fetcher = old
      · exact Or.inr (heq ▸ hdies)
      · exact Or.inl ((hmem f.fetcher).2 (Or.inr ⟨h, heq⟩))
    · exact Or.inr h
  · intro k i hi
    rw [hnodes, List.getElem?_set] at hi
    rw [hwaiting, List.getElem?_set]
    split at hi
    · next hk =>
      have hzero : asked i m' = 0 := by
        obtain rfl : new = i := by
          split at hi
          · exact Option.some.inj hi
          · cases hi
        rw [hasked, asked, List.countP_eq_zero]
        exact fun f hf => by simpa using hnone f hf
      have hreplied : replied i m' = 0 := Nat.le_zero.1 (hzero ▸ replied_le hr)
      rw [hzero, hreplied, if_pos hk]
      split <;> simp
    · next hk =>
      rw [hasked, hreplied, if_neg hk]
      exact hI.balance k i hi
  · intro h
    rw [hwaiting, List.set_eq_nil_iff] at h
    rw [hfetches]
    exact hI.idle h

/-- The books after a call of the experiment. -/
theorem booked_own {r : NetworkChoice × ExperimentChoice} {d : ExperimentCall N} {s : RecordedNetwork N × Experiment N}
    {t : Experiment N} {rest cs : List (ProgramCall N)} {tr : List (ProgramCall N × NetworkChoice × ExperimentChoice)}
    {xs : List (NetworkCall N)}
    (hr : Run (experimentProgram Γ D N) ok (startExperiment config key offset limit nNodes) ⟨(s.1, t), cs ++ rest, (.own d, r) :: tr⟩)
    (hI : Booked ⟨s, .own d :: rest, tr⟩) (hpre : ExperimentAux.OwnPre Γ D nNodes False (outline s) d)
    (hbooks : Books r.2 s.1.network.epoch s.2 d t xs) : Booked ⟨(s.1, t), cs ++ rest, (.own d, r) :: tr⟩ := by
  have hempty : (outline s).slots = 0 → s.2.fetches = [] ∧ s.2.waiting = [] := fun hslots =>
    ⟨hI.idle (List.length_eq_zero_iff.1 hslots), List.length_eq_zero_iff.1 hslots⟩
  -- A new node is in no slot, and nobody waits yet.
  have hpush : ∀ i : Fin N, i.val = s.2.made → (outline s).Populated False → (outline s).slots = 0 → t.nodes = s.2.nodes ++ [i] →
      t.waiting = s.2.waiting → t.fetches = s.2.fetches → Booked ⟨(s.1, t), cs ++ rest, (.own d, r) :: tr⟩ := by
    intro i hi hpop hslots hnodes hwaiting hfetches
    obtain ⟨hfetches₀, hwaiting₀⟩ := hempty hslots
    refine Booked.of_nil hr ?_ (hfetches.trans hfetches₀) ?_
    · refine (congrArg List.Nodup hnodes).mpr (List.nodup_append.2 ⟨hI.nodup, List.nodup_singleton i, ?_⟩)
      rintro j hj k hk rfl
      rw [List.mem_singleton.1 hk] at hj
      exact hpop.not_mem hi hj
    · intro n
      change t.waiting[n]? ≠ some true
      rw [hwaiting, hwaiting₀]
      rintro ⟨⟩
  cases hbooks with
  | same _ hnodes hwaiting hfetches => exact booked_congr hI hnodes hwaiting hfetches (fun _ h => h) (fun _ => rfl)
  | main _ hi hnodes hwaiting hfetches =>
    exact hpush _ hi (hpre.2 ▸ Outline.populated_start) (congrArg Outline.slots hpre.2) hnodes hwaiting hfetches
  | addNodes _ hi hnodes hwaiting hfetches => exact hpush _ hi hpre.2.1 hpre.2.2.2.2.1 hnodes hwaiting hfetches
  | experiment hnodes hwaiting hfetches =>
    refine Booked.of_nil hr ((congrArg List.Nodup hnodes).mpr hI.nodup) (hfetches.trans (hempty hpre.2.2.2.1).1) ?_
    intro n hn
    rw [hwaiting] at hn
    exact Bool.noConfusion (List.eq_of_mem_replicate (List.mem_of_getElem? hn))
  | @install v new _ hnodes hwaiting hfetches =>
    obtain ⟨-, ⟨old, hold, hdies⟩, -, hfresh, hpop⟩ := hpre
    have hlives := (hpop.alive new ((Outline.mem_set hI.nodup hold new new).2 (Or.inl rfl)))
    exact booked_install hr hI hold hdies hfresh hlives hnodes hfetches hwaiting rfl (fun _ => rfl)
  | search hnode hidle _ _ hnodes hwaiting hfetches =>
    exact booked_search hI hnode hidle hnodes hfetches hwaiting rfl (fun _ => rfl)

/-- In every run the books are right. -/
theorem booked_of_run (h : Run (experimentProgram Γ D N) anyStep (startExperiment config key offset limit nNodes) m) :
    Booked m := by
  refine h.invariant (I := Booked) ?_ ?_
  · exact ⟨List.nodup_nil, fun n f hf => (by cases hf), fun f hf => (by cases hf), fun n i hi => (by cases hi), fun _ => rfl⟩
  intro m l m' hr hI ho hs
  have hr' := hr.step ho hs.step_eq
  have hdead : ∀ i, (m.state.1.network.applications i).dead = true → (m'.state.1.network.applications i).dead = true :=
    fun i hi => (congrArg BaseApplication.dead (congrArg KademliaNode.toBaseApplication (ExperimentAux.dead_step hr hs hi))).trans hi
  cases hs with
  | @run r c rest s tr s' cs hw he =>
    have hpre := ExperimentAux.pre_of_run (fun _ _ _ => False.elim) hr rfl
    have hreplied : outcomeOf c = [] → ∀ i, replied i ⟨s', cs ++ rest, (c, r) :: tr⟩ = replied i ⟨s, c :: rest, tr⟩ := by
      intro hnone i
      simp only [replied, outcomes, List.flatMap_cons, hnone, List.nil_append]
    cases c with
    | own d =>
      obtain ⟨t, xs, ds, hexec, rfl, rfl⟩ := ExperimentAux.exec_own he
      exact booked_own hr' hI hpre (books_of_own hexec).1
    | enter x =>
      obtain ⟨-, hp⟩ := Option.ite_none_right_eq_some.1 he
      cases hp
      exact booked_congr hI rfl rfl rfl hdead (hreplied rfl)
    | inside x =>
      rcases ExperimentAux.exec_inside he with ⟨huser, rfl, rfl⟩ | ⟨w, xs, hw, rfl, rfl⟩
      · exact booked_congr hI rfl rfl rfl hdead (hreplied (outcomeOf_of_isUserCode huser))
      obtain ⟨hfetches, hnodes⟩ := watch_fetches x s.1 s.2
      rcases outcome_cases hr' with ⟨i, k, v, f, rfl, hf, hi, hwatch⟩ | ⟨hnone, ⟨rfl, hwatch⟩ | ⟨-, hwatch⟩⟩
      · have hmem := List.mem_of_getElem? hf
        have hlives := (hI.kept f hmem).resolve_right (fun hd => by
          rcases hpre with h | ⟨-, hdead, -⟩
          · cases h
          · exact Bool.noConfusion (hdead.symm.trans (hi ▸ hd)))
        refine booked_fetched hr' hI hmem hlives hnodes hfetches (congrArg Experiment.waiting hwatch) hdead (fun j => ?_)
        have houtcomes : outcomes ⟨({ s.1.record (.app i (.fetched k v)) with network := w },
            Experiment.watch (.app i (.fetched k v)) s.1 s.2), xs.map .inside ++ rest, (.inside (.app i (.fetched k v)), r) :: tr⟩ =
            (i, k, v) :: outcomes ⟨s, .inside (.app i (.fetched k v)) :: rest, tr⟩ := rfl
        rw [replied, houtcomes, List.countP_cons, hi]
        simp only [decide_eq_true_eq]
        rfl
      · exact booked_congr hI hnodes rfl hfetches hdead (hreplied rfl)
      · exact booked_congr hI hnodes (congrArg Experiment.waiting hwatch) hfetches hdead (hreplied hnone)
  | event hc => cases hc
  | reentry hf hc => cases hc
  | leave hf => cases hf

/-! ## What the transcript tells -/

variable {m₀ : ExperimentConfig N}

/-- What was started stays so. -/
theorem startedAfter_step {since : Nat} (h : StartedAfter Γ D m₀ m k since) (hs : Step (experimentProgram Γ D N) m l m') :
    StartedAfter Γ D m₀ m' k since := by
  obtain ⟨m₁, l₁, m₂, hr₁, hs₁, hr₂, hrest⟩ := h
  exact ⟨m₁, l₁, m₂, hr₁, hs₁, hr₂.step trivial hs.step_eq, hrest⟩

theorem tells_step {line : Line × Nat} {o : Fin N × UserFn × Option (List UInt8)} (h : Tells Γ D m₀ m line o)
    (hs : Step (experimentProgram Γ D N) m l m') (hfetches : m.state.2.fetches <+: m'.state.2.fetches) :
    Tells Γ D m₀ m' line o := by
  obtain ⟨g, since, hg, hfetcher, hnow, hsince, hstarted, hline⟩ := h
  obtain ⟨later, hlater⟩ := hfetches
  refine ⟨g, since, ?_, hfetcher, hnow, hsince, startedAfter_step hstarted hs, hline⟩
  rw [← hlater, List.getElem?_append_left (List.getElem?_eq_some_iff.1 hg).1]
  exact hg

/-- A line that tells nothing of fetches and time. -/
theorem told_quiet {lines lines' : List Line} (h : lines' = lines ∨ ∃ v, lines' = .replaced v :: lines) :
    lines'.countP Line.isTransferred = lines.countP Line.isTransferred ∧ told lines' = told lines := by
  rcases h with h | ⟨v, h⟩
  · rw [h]
    exact ⟨rfl, rfl⟩
  · rw [h]
    exact ⟨List.countP_cons_of_neg (by simp [Line.isTransferred]), if_neg (by simp [Line.isOutcome])⟩

/-- The fetch was started after as many lines as before, and no line is taken back. -/
theorem since_step {f : Fetch N} (hI : Told Γ D m₀ m) (hs : Step (experimentProgram Γ D N) m l m')
    (hcount : m.state.2.transcript.countP Line.isTransferred ≤ m'.state.2.transcript.countP Line.isTransferred)
    (hf : m.state.2.fetches[k]? = some f) :
    ∃ e, f.now = UInt64.ofNat e ∧ e ≤ m'.state.2.transcript.countP Line.isTransferred ∧ StartedAfter Γ D m₀ m' k e := by
  obtain ⟨e, hnow, hle, hstarted⟩ := hI.since k f hf
  exact ⟨e, hnow, hle.trans hcount, startedAfter_step hstarted hs⟩

/-- A step that tells nothing. -/
theorem told_congr (hI : Told Γ D m₀ m) (hs : Step (experimentProgram Γ D N) m l m')
    (hepoch : m'.state.1.network.epoch = m.state.1.network.epoch) (hfetches : m'.state.2.fetches = m.state.2.fetches)
    (htranscript : m'.state.2.transcript = m.state.2.transcript ∨ ∃ v, m'.state.2.transcript = .replaced v :: m.state.2.transcript)
    (houtcomes : outcomes m' = outcomes m) : Told Γ D m₀ m' := by
  obtain ⟨hcount, htold⟩ := told_quiet htranscript
  refine ⟨?_, ?_, ?_⟩
  · rw [hepoch, hcount]
    exact hI.epoch
  · rw [hfetches]
    exact fun k f hf => since_step hI hs hcount.ge hf
  · rw [htold, houtcomes]
    exact hI.lines.imp (fun _ _ h => tells_step h hs (hfetches ▸ List.prefix_refl _))

/-- A fetch is started now. -/
theorem told_search (hr : Run (experimentProgram Γ D N) ok m₀ m) (hI : Told Γ D m₀ m)
    (hs : Step (experimentProgram Γ D N) m l m') {f : Fetch N} (hnow : f.now = m.state.1.network.epoch)
    (hepoch : m'.state.1.network.epoch = m.state.1.network.epoch) (hfetches : m'.state.2.fetches = m.state.2.fetches ++ [f])
    (htranscript : m'.state.2.transcript = m.state.2.transcript ∨ ∃ v, m'.state.2.transcript = .replaced v :: m.state.2.transcript)
    (houtcomes : outcomes m' = outcomes m) : Told Γ D m₀ m' := by
  obtain ⟨hcount, htold⟩ := told_quiet htranscript
  refine ⟨?_, ?_, ?_⟩
  · rw [hepoch, hcount]
    exact hI.epoch
  · rw [hfetches]
    intro k g hg
    rcases Nat.lt_or_ge k m.state.2.fetches.length with hk | hk
    · rw [List.getElem?_append_left hk] at hg
      exact since_step hI hs hcount.ge hg
    · rw [List.getElem?_append_right hk, List.getElem?_singleton, Option.ite_none_right_eq_some, Option.some.injEq] at hg
      obtain ⟨hzero, rfl⟩ := hg
      obtain rfl : k = m.state.2.fetches.length := Nat.le_antisymm (Nat.le_of_sub_eq_zero hzero) hk
      have hlength : m'.state.2.fetches.length = m.state.2.fetches.length + 1 := by
        rw [hfetches, List.length_append, List.length_singleton]
      exact ⟨_, hnow.trans hI.epoch, hcount.ge, m, l, m', run_anyStep hr, hs, .refl, rfl, hlength, rfl⟩
  · rw [htold, houtcomes]
    exact hI.lines.imp (fun _ _ h => tells_step h hs (hfetches ▸ List.prefix_append ..))

/-- A lambda of a fetch runs, and prints its line. -/
theorem told_fetched (hI : Told Γ D m₀ m) (hs : Step (experimentProgram Γ D N) m l m') {f : Fetch N} {v : Option (List UInt8)}
    (hf : m.state.2.fetches[k]? = some f) (hi : f.fetcher = i) (hepoch : m'.state.1.network.epoch = m.state.1.network.epoch)
    (hfetches : m'.state.2.fetches = m.state.2.fetches)
    (htranscript : m'.state.2.transcript = f.line v (m.state.1.network.epoch - f.now) :: m.state.2.transcript)
    (houtcomes : outcomes m' = (i, k, v) :: outcomes m) : Told Γ D m₀ m' := by
  have hcount : m'.state.2.transcript.countP Line.isTransferred = m.state.2.transcript.countP Line.isTransferred := by
    rw [htranscript]
    refine List.countP_cons_of_neg ?_
    unfold Fetch.line
    split <;> exact Bool.false_ne_true
  refine ⟨?_, ?_, ?_⟩
  · rw [hepoch, hcount]
    exact hI.epoch
  · rw [hfetches]
    exact fun k f hf => since_step hI hs hcount.ge hf
  · have houtcome : (f.line v (m.state.1.network.epoch - f.now)).isOutcome = true := by
      unfold Fetch.line
      split <;> rfl
    obtain ⟨since, hnow, hle, hstarted⟩ := hI.since k f hf
    rw [htranscript, told, if_pos houtcome, houtcomes]
    refine .cons ⟨f, since, hfetches ▸ hf, hi, hnow, hle, startedAfter_step hstarted hs, ?_⟩
      (hI.lines.imp (fun _ _ h => tells_step h hs (hfetches ▸ List.prefix_refl _)))
    rw [hI.epoch, hnow, ← UInt64.ofNat_sub hle]

/-- In every run the transcript tells of every lambda that ran. -/
theorem told_of_run (h : Run (experimentProgram Γ D N) ok (startExperiment config key offset limit nNodes) m) :
    Told Γ D (startExperiment config key offset limit nNodes) m := by
  refine h.invariant (I := Told Γ D (startExperiment config key offset limit nNodes)) ⟨rfl, fun k f hf => (by cases hf), .nil⟩ ?_
  intro m l m' hr hI ho hs
  have hr' := hr.step ho hs.step_eq
  cases hs₀ : hs with
  | @run r c rest s tr s' cs hw he =>
    cases c with
    | own d =>
      obtain ⟨t, xs, ds, hexec, rfl, rfl⟩ := ExperimentAux.exec_own he
      obtain ⟨hbooks, htranscript⟩ := books_of_own hexec
      cases hbooks with
      | same _ _ _ hfetches | main _ _ _ _ hfetches | addNodes _ _ _ _ hfetches | experiment _ _ hfetches
        | install _ _ hfetches => exact told_congr hI hs rfl hfetches htranscript rfl
      | search _ _ _ hnow _ _ hfetches => exact told_search hr hI hs hnow rfl hfetches htranscript rfl
    | enter x =>
      obtain ⟨-, hp⟩ := Option.ite_none_right_eq_some.1 he
      cases hp
      exact told_congr hI hs rfl rfl (Or.inl rfl) rfl
    | inside x =>
      rcases ExperimentAux.exec_inside he with ⟨huser, rfl, rfl⟩ | ⟨w, xs, hw, rfl, rfl⟩
      · refine told_congr hI hs rfl rfl (Or.inl rfl) ?_
        simp only [outcomes, List.flatMap_cons, outcomeOf_of_isUserCode huser, List.nil_append]
      have hfetches := (watch_fetches x s.1 s.2).1
      rcases outcome_cases hr' with ⟨i, k, v, f, rfl, hf, hi, hwatch⟩ | ⟨hnone, ⟨rfl, hwatch⟩ | ⟨hend, hwatch⟩⟩
      · exact told_fetched hI hs hf hi (epoch_of_exec hw (by rintro ⟨⟩)) hfetches (congrArg Experiment.transcript hwatch) rfl
      · cases hw
        have hcount : (Experiment.watch .endTick s.1 s.2).transcript.countP Line.isTransferred =
            s.2.transcript.countP Line.isTransferred + 1 := List.countP_cons_of_pos rfl
        refine ⟨?_, ?_, hI.lines.imp (fun _ _ h => tells_step h hs (List.prefix_refl _))⟩
        · change s.1.network.epoch + 1 = _
          rw [hcount, hI.epoch]
          exact (UInt64.ofNat_add _ 1).symm
        · exact fun k f hf => since_step hI hs (Nat.le_of_succ_le hcount.ge) hf
      · refine told_congr hI hs (epoch_of_exec hw hend) hfetches (Or.inl (congrArg Experiment.transcript hwatch)) ?_
        simp only [outcomes, List.flatMap_cons, hnone, List.nil_append]
  | event hc => cases hc
  | reentry hf hc => cases hc
  | leave hf => cases hf

end FetchesAux

open FetchesAux

variable {N : Nat} {Γ : Ctx} {D : Durations} {nNodes : Nat} {config : Config} {key : Fin N → KademliaKey} {offset : Fin N → Time}
  {limit : UInt32} {m : ExperimentConfig N}

/-- Every fetch is accounted for: it is answered once at most, and by the node that was asked; and a slot waits exactly when there is
one fetch that its node was asked for and has not answered. The nodes that were asked are in their slots, or dead. -/
theorem fetches_accounted
    (h : Run (experimentProgram Γ D N) anyStep (startExperiment config key offset limit nNodes) m) :
    ((outcomes m).map (fun o => o.2.1)).Nodup ∧
      (∀ o ∈ outcomes m, ∃ f, m.state.2.fetches[o.2.1]? = some f ∧ f.fetcher = o.1) ∧
      (∀ (n : Nat) i, m.state.2.nodes[n]? = some i →
        asked i m = replied i m + if m.state.2.waiting[n]? = some true then 1 else 0) ∧
      ∀ f ∈ m.state.2.fetches, m.state.2.nodes[f.nodeIndex]? = some f.fetcher ∨
        (m.state.1.network.applications f.fetcher).dead = true := by
  have hbooked := booked_of_run h
  obtain ⟨l, hl, hsub⟩ := outcomes_subperm h
  have hfetch : ∀ o ∈ outcomes m, ∃ f, m.state.2.fetches[o.2.1]? = some f ∧ f.fetcher = o.1 := by
    intro o ho
    exact mem_started.1 (hsub.subset (hl.mem_iff.2 (List.mem_map.2 ⟨o, ho, rfl⟩)))
  refine ⟨?_, hfetch, hbooked.balance, fun f hf => ?_⟩
  · have hmap : (outcomes m).map (fun o => o.2.1) = ((outcomes m).map (fun o => (o.1, o.2.1))).map Prod.snd := by
      rw [List.map_map]
      rfl
    have hnumbers : (l.map Prod.snd).Nodup := by
      refine (hsub.map Prod.snd).nodup ?_
      rw [map_snd_started]
      exact List.nodup_range
    rw [hmap]
    exact (hl.map Prod.snd).nodup_iff.1 hnumbers
  · refine (hbooked.kept f hf).imp_left (fun hmem => ?_)
    obtain ⟨n, hn⟩ := List.mem_iff_getElem?.1 hmem
    rw [hbooked.slot n f hf hn]
    exact hn

/-- Node zero knows nobody when it fetches, and fails at once. -/
theorem fetches_accounted_sample : ∃ m : ExperimentConfig 3, (outcomes m).length = 1 ∧
    ((outcomes m).map (fun o => o.2.1)).Nodup ∧
      (∀ o ∈ outcomes m, ∃ f, m.state.2.fetches[o.2.1]? = some f ∧ f.fetcher = o.1) ∧
      (∀ (n : Nat) i, m.state.2.nodes[n]? = some i →
        asked i m = replied i m + if m.state.2.waiting[n]? = some true then 1 else 0) ∧
      ∀ f ∈ m.state.2.fetches, m.state.2.nodes[f.nodeIndex]? = some f.fetcher ∨
        (m.state.1.network.applications f.fetcher).dead = true := by
  obtain ⟨m, h, hm⟩ := exists_run_of_follow (experimentProgram Ctx.reference ⟨0, 1, 3⟩ 3) (fun _ _ => true)
    replaceOne (experimentRuns ⟨1, 0, 1⟩ 5 104) (fun m => decide ((outcomes m).length = 1)) (by decide +kernel)
  exact ⟨m, of_decide_eq_true hm, fetches_accounted (run_anyStep h)⟩

/-- The transcript tells of every fetch that was answered, in the order of the answers: with its slot and what it searched, and the
number of ticks since it was started. -/
theorem latencies_told (h : Run (experimentProgram Γ D N) anyStep (startExperiment config key offset limit nNodes) m) :
    List.Forall₂ (Tells Γ D (startExperiment config key offset limit nNodes) m) (told m.state.2.transcript) (outcomes m) :=
  (told_of_run h).lines

/-- Node zero fetches from node one, which was killed, and gives up after five ticks. -/
theorem latencies_told_sample : ∃ m : ExperimentConfig 3, told m.state.2.transcript = [(.failed 0 1 5, 8)] ∧
    List.Forall₂ (Tells Ctx.reference ⟨1, 2, 9⟩ replaceOne m) (told m.state.2.transcript) (outcomes m) := by
  obtain ⟨m, h, hm⟩ := exists_run_of_follow (experimentProgram Ctx.reference ⟨1, 2, 9⟩ 3) (fun _ _ => true)
    replaceOne (experimentRuns ⟨1, 0, 1⟩ 5 341) (fun m => decide (told m.state.2.transcript = [(.failed 0 1 5, 8)]))
    (by decide +kernel)
  exact ⟨m, of_decide_eq_true hm, latencies_told (run_anyStep h)⟩

end Dhtsim
