import Dhtsim.Lemmas.Callers
import Dhtsim.Theorems.Experiment
import Mathlib.Data.List.Count
import Mathlib.Data.List.Flatten

/-!
# The fetches of an experiment

Each fetch of `run` hands two lambdas to one lookup of one node. The lookup runs at most one of them, at most once
(`fetched_le_callers`), as no lookup is started while the callbacks of another run (`noSelfLookup_of_run`).
-/

namespace Dhtsim

open CallMachine KademliaNode

/-- The functions handed to `fetch` that a function of a lookup may run. -/
def FindNodesFn.fetches : FindNodesFn → List UserFn
  | .fetchSuccess cb => cb.successFns
  | .fetchFailure cb => cb.failureFns
  | _ => []

/-- The function handed to `fetch` that a call runs. -/
def Call.fetches : Call → List UserFn
  | .fetched fn _ => [fn]
  | _ => []

/-- The functions handed to `fetch` with a callback set, if they are handed over for success and for failure alike. -/
def CallbackSet.fetches (cb : CallbackSet FindNodesFn) : List UserFn := cb.successFns.flatMap FindNodesFn.fetches

/-- A callback set has the same functions of fetches for success and for failure. -/
def CallbackSet.Paired (cb : CallbackSet FindNodesFn) : Prop :=
  cb.failureFns.flatMap FindNodesFn.fetches = cb.successFns.flatMap FindNodesFn.fetches

namespace FetchesAux

variable {Γ : Ctx} {config : Config} {key : KademliaKey} {offset : Time} {ok : NodeConfig → NodeLabel → Prop} {m : NodeConfig}

/-- The functions of fetches that a call makes run. -/
theorem makes_fetches {ch : Choice} {n : KademliaNode} {c : Call} {p : KademliaNode × List Call} (he : exec Γ ch c n = some p)
    (k : UserFn) : (p.2.flatMap Call.fetches).count k ≤ (c.answersLookup.flatMap (fun e => e.2.fetches)).count k := by
  have hmap : ∀ (l : List UserFn) (v : Option (List UInt8)), (l.map (fun fn => Call.fetched fn v)).flatMap Call.fetches = l := by
    intro l v
    rw [List.flatMap_map]
    exact List.flatMap_singleton' l
  have hnone : (∀ fn v, Call.fetched fn v ∉ p.2) → (p.2.flatMap Call.fetches).count k ≤
      (c.answersLookup.flatMap (fun e => e.2.fetches)).count k := by
    intro h
    have hnil : p.2.flatMap Call.fetches = [] := by
      refine List.flatMap_eq_nil_iff.2 (fun x hx => ?_)
      cases x with
      | fetched fn v => exact absurd hx (h fn v)
      | _ => rfl
    rw [hnil]
    exact Nat.zero_le _
  by_cases hc : ∃ success fn result, c = .found success fn result
  · obtain ⟨success, fn, result, rfl⟩ := hc
    cases he
    have hanswers : (Call.found success fn result).answersLookup.flatMap (fun e => e.2.fetches) = fn.fetches :=
      List.append_nil _
    rw [hanswers]
    cases fn with
    | fetchSuccess cb =>
      simp only [found, FindNodesFn.fetches]
      split
      · rw [hmap]
      · exact Nat.zero_le _
    | fetchFailure cb =>
      simp only [found, FindNodesFn.fetches]
      rw [hmap]
    | storeAt value =>
      have hnil : (result.nearest.map (fun entry => Call.storeAt entry.address value)).flatMap Call.fetches = [] := by
        rw [List.flatMap_map]
        exact List.flatMap_eq_nil_iff.2 (fun _ _ => rfl)
      simp only [found, hnil]
      exact Nat.zero_le _
    | refresh cb =>
      have hnil : (cb.successFns.map Call.refreshed).flatMap Call.fetches = [] := by
        rw [List.flatMap_map]
        exact List.flatMap_eq_nil_iff.2 (fun _ _ => rfl)
      simp only [found, hnil]
      exact Nat.zero_le _
    | drop => exact Nat.zero_le _
    | user fn => exact Nat.zero_le _
  · refine hnone (fun fn v hx => ?_)
    cases exec_makes he _ hx with
    | foundFetch => exact hc ⟨_, _, _, rfl⟩
    | foundFetchFail => exact hc ⟨_, _, _, rfl⟩

/-- A function of a fetch runs as often as functions of lookups run that call it, or less often. -/
theorem fetched_le_found {m₀ : NodeConfig} (h : Run (nodeProgram Γ) ok m₀ m) (h₀ : m₀.stack = [] ∧ m₀.trace = []) (k : UserFn) :
    ((tally Call.fetches m).count k) ≤ ((m.trace.flatMap (fun e => e.1.answersLookup)).flatMap (fun e => e.2.fetches)).count k := by
  have hflow := h.flow_le (F := fun _ => 0) (w := fun c => c.fetches.count k)
    (D := fun tr => (tr.flatMap (fun e => e.1.fetches)).count k)
    (G := fun tr => ((tr.flatMap (fun e => e.1.answersLookup)).flatMap (fun e => e.2.fetches)).count k)
    (by simp [h₀.1, h₀.2]) ?_ ?_
  · have hsum : (m.stack.flatMap Call.fetches).count k = (m.stack.map (fun c => c.fetches.count k)).sum := List.count_flatMap
    rw [tally, List.count_append, hsum]
    omega
  · intro r c rest s tr s' cs _ _ he
    have hcs : (cs.map (fun c => c.fetches.count k)).sum = (cs.flatMap Call.fetches).count k := List.count_flatMap.symm
    have hle := makes_fetches he k
    simp only [List.flatMap_cons, List.flatMap_append, List.count_append]
    rw [hcs]
    have hle : (cs.flatMap Call.fetches).count k ≤ (c.answersLookup.flatMap (fun e => e.2.fetches)).count k := hle
    omega
  · intro c hc
    cases c with
    | fetched fn v => cases isEvent_of_enters hc
    | _ => rfl

/-- Those who were answered called for it. -/
theorem answered_subperm (tr : NodeTrace) : ((answered tr).map (·.2)).Subperm (callers tr) := by
  refine List.subperm_ext_iff.2 (fun x _ => ?_)
  have hfilter : ∀ l : List Caller, (l.filter (fun y => decide (y.target = x.target))).count x = l.count x :=
    fun l => List.count_filter (by simp)
  have hcount := (CallersAux.callers_perm x.target tr).count_eq x
  rw [List.count_append, hfilter, hfilter] at hcount
  omega

/-- A function of a fetch runs as often as somebody hands it to a lookup, or less often. -/
theorem fetched_le_callers (hok : ∀ m l, ok m l → noSelfLookup m l = true)
    (h : Run (nodeProgram Γ) ok (startNode config key offset) m) (hpaired : ∀ x ∈ callers m.trace, x.callback.Paired) (k : UserFn) :
    (tally Call.fetches m).count k ≤ ((callers m.trace).flatMap (fun x => x.callback.fetches)).count k := by
  refine (fetched_le_found h ⟨rfl, rfl⟩ k).trans ?_
  -- The functions of lookups that ran are among those that had to run.
  have hdue : ((m.trace.flatMap (fun e => e.1.answersLookup)).flatMap (fun e => e.2.fetches)).count k ≤
      ((lookupsDue m.trace).flatMap (fun e => e.2.fetches)).count k := by
    have hperm := ((CallersAux.answered_of_run hok h).flatMap_right (fun e => e.2.fetches)).count_eq k
    rw [tally, List.flatMap_append, List.count_append] at hperm
    omega
  refine hdue.trans ?_
  obtain ⟨l, hl, hsub⟩ := answered_subperm m.trace
  have hmem : ∀ e ∈ answered m.trace, e.2 ∈ callers m.trace :=
    fun e he => hsub.subset (hl.mem_iff.2 (List.mem_map_of_mem he))
  have hfns : (lookupsDue m.trace).flatMap (fun e => e.2.fetches) =
      ((answered m.trace).map (·.2)).flatMap (fun x => x.callback.fetches) := by
    rw [lookupsDue, List.flatMap_assoc, List.flatMap_map]
    refine List.flatMap_congr (fun e he => ?_)
    rw [List.flatMap_map]
    obtain ⟨success, x⟩ := e
    cases success with
    | true => rfl
    | false => exact hpaired x (hmem _ he)
  rw [hfns, ← (hl.flatMap_right (fun x => x.callback.fetches)).count_eq k]
  exact (hsub.flatMap _).count_le k

/-! ## No lookup is started while callbacks run -/

/-- What runs when a lookup has ended: its functions, and what they call. -/
def answering : Call → Bool
  | .found _ _ _ => true
  | .storeAt _ _ => true
  | .refreshed _ => true
  | .refreshDone _ => true
  | .fetched _ _ => true
  | .userCode => true
  | .base (.send _ cb _ _) => cb.failureFns.isEmpty
  | _ => false

theorem answering_of_makes {ch : Choice} {n : KademliaNode} {c y : Call} (h : Makes Γ ch n c y) (hc : answering c = true) :
    answering y = true := by
  cases h with
  | sendDead hd hfn =>
    rw [List.isEmpty_iff.1 hc] at hfn
    cases hfn
  | foundStore | foundRefresh | foundFetch | foundFetchFail | foundUser | fetchedUser | storeSend | refreshedDone |
    refreshDoneUser => rfl
  | _ => cases hc

/-- A finder is erased when the functions of its lookup have run. -/
theorem exec_eraseFinder {ch : Choice} {n : KademliaNode} {c : Call} {p : KademliaNode × List Call}
    (he : exec Γ ch c n = some p) {t : KademliaKey} (ht : .eraseFinder t ∈ p.2) :
    ∃ xs, p.2 = xs ++ [.eraseFinder t] ∧ ∀ x ∈ xs, answering x = true ∧ ∀ t, x ≠ .eraseFinder t := by
  have hcomplete : ∀ (nf : NodeFinder) (t' : KademliaKey) (success : Bool) (result : FindNodesMessage),
      .eraseFinder t ∈ complete nf t' success result → ∃ xs, complete nf t' success result = xs ++ [.eraseFinder t] ∧
        ∀ x ∈ xs, answering x = true ∧ ∀ t, x ≠ .eraseFinder t := by
    intro nf t' success result hmem
    have hfound : ∀ x ∈ (nf.findNodesCallback.fns success).map (fun fn => Call.found success fn result),
        answering x = true ∧ ∀ t, x ≠ .eraseFinder t := by
      intro x hx
      obtain ⟨fn, -, rfl⟩ := List.mem_map.1 hx
      exact ⟨rfl, by rintro t ⟨⟩⟩
    rcases List.mem_append.1 hmem with hmem | hmem
    · exact absurd rfl ((hfound _ hmem).2 t)
    · cases List.mem_singleton.1 hmem
      exact ⟨_, rfl, hfound⟩
  cases exec_makes he _ ht with
  | failErase =>
    obtain ⟨-, nf, -, h3⟩ := findNodesFail_eq he
    rw [h3] at ht ⊢
    exact hcomplete _ _ _ _ ht
  | finishErase =>
    obtain ⟨nf, -, -, h3⟩ := findNodesFinish_eq he
    rw [h3] at ht ⊢
    exact hcomplete _ _ _ _ ht
  | valueFinishErase =>
    obtain ⟨-, nf, -, h3⟩ := findValueFinish_eq he
    rw [h3] at ht ⊢
    exact hcomplete _ _ _ _ ht

end FetchesAux

/-- The calls that wait while the program runs. -/
abbrev ProgramCall (N : Nat) := ClientCall (NetworkCall N) (ExperimentCall N)

namespace FetchesAux

variable {N : Nat} {Γ : Ctx} {D : Durations} {nNodes : Nat} {config : Config} {key : Fin N → KademliaKey} {offset : Fin N → Time}
  {limit : UInt32} {m m' : ExperimentConfig N} {l : ExperimentLabel N} {ok : ExperimentConfig N → ExperimentLabel N → Prop}

/-- Above a call that erases a finder there are only the functions of its lookup, and what they call. -/
def OverErase (x y : ProgramCall N) : Prop :=
  ∀ i t, y = .inside (.app i (.eraseFinder t)) → ∃ c, x = .inside (.app i c) ∧ answering c = true

/-- The calls that a call of the network makes stay in order. -/
theorem overErase_made {ch : NetworkChoice} {w : CentralizedNetwork N} {x : NetworkCall N}
    {p : CentralizedNetwork N × List (NetworkCall N)} (he : CentralizedNetwork.exec Γ ch x w = some p) :
    (p.2.map (ClientCall.inside (δ := ExperimentCall N))).Pairwise OverErase := by
  refine List.pairwise_map.2 ?_
  by_cases herase : ∃ i t, NetworkCall.app i (.eraseFinder t) ∈ p.2
  · obtain ⟨i, t, hmem⟩ := herase
    cases CentralizedNetwork.exec_makes he _ hmem with
    | inside =>
      obtain ⟨q, hq, heq⟩ := CentralizedNetwork.exec_app he
      rw [heq] at hmem ⊢
      obtain ⟨y, hy, hyeq⟩ := List.mem_map.1 hmem
      cases hyeq
      obtain ⟨xs, hxs, hanswer⟩ := exec_eraseFinder hq hy
      refine List.pairwise_map.2 ?_
      rw [hxs]
      refine List.pairwise_append.2 ⟨?_, List.pairwise_singleton _ _, ?_⟩
      · refine List.Pairwise.imp_of_mem (R := fun _ _ => True) ?_ (List.pairwise_of_forall (fun _ _ => trivial))
        rintro a b - hb - j t' heq
        cases heq
        exact absurd rfl ((hanswer _ hb).2 t')
      · intro a ha b hb j t' heq
        cases List.mem_singleton.1 hb
        cases heq
        exact ⟨a, rfl, (hanswer a ha).1⟩
    | handOn =>
      cases he
      exact List.pairwise_singleton _ _
  · refine List.Pairwise.imp_of_mem (R := fun _ _ => True) ?_ (List.pairwise_of_forall (fun _ _ => trivial))
    rintro a b - hb - j t' heq
    cases heq
    exact absurd ⟨j, t', hb⟩ herase

/-- The calls stay in order. -/
theorem overErase_of_run (h : Run (experimentProgram Γ D N) ok (startExperiment config key offset limit nNodes) m) :
    m.stack.Pairwise OverErase := by
  refine h.invariant (I := fun m => m.stack.Pairwise OverErase) (List.pairwise_singleton _ _) ?_
  rintro m l m' - hI - hs
  cases hs with
  | @run r c rest s tr s' cs hw he =>
    obtain ⟨hc, hrest⟩ := List.pairwise_cons.1 hI
    refine List.pairwise_append.2 ⟨?_, hrest, ?_⟩
    · cases c with
      | own d =>
        obtain ⟨t, xs, ds, -, -, rfl⟩ := ExperimentAux.exec_own he
        refine List.Pairwise.imp_of_mem (R := fun _ _ => True) ?_ (List.pairwise_of_forall (fun _ _ => trivial))
        rintro a b - hb - i t' rfl
        rcases List.mem_append.1 hb with hb | hb
        · obtain ⟨x, -, hx⟩ := List.mem_map.1 hb
          cases hx
        · obtain ⟨x, -, hx⟩ := List.mem_map.1 hb
          cases hx
      | enter x =>
        obtain ⟨-, hp⟩ := Option.ite_none_right_eq_some.1 he
        cases hp
        exact List.pairwise_singleton _ _
      | inside x =>
        rcases ExperimentAux.exec_inside he with ⟨-, -, rfl⟩ | ⟨w, xs, hw, -, rfl⟩
        · exact List.Pairwise.nil
        · exact overErase_made hw
    · intro a ha b hb i t hbt
      obtain ⟨c', rfl, hanswer⟩ := hc b hb i t hbt
      rcases ExperimentAux.exec_inside he with ⟨-, -, rfl⟩ | ⟨w, xs, hw, -, rfl⟩
      · cases ha
      · obtain ⟨q, hq, heq⟩ := CentralizedNetwork.exec_app hw
        cases heq
        obtain ⟨z, hz, rfl⟩ := List.mem_map.1 ha
        obtain ⟨y, hy, rfl⟩ := List.mem_map.1 hz
        exact ⟨y, rfl, answering_of_makes (exec_makes hq y hy) hanswer⟩
  | event hc => cases hc
  | reentry hf hc => cases hc
  | leave hf => cases hf

/-- A node of the program starts no lookup while the callbacks of another for the same target run. -/
theorem noSelfLookup_of_run (h : Run (experimentProgram Γ D N) ok (startExperiment config key offset limit nNodes) m) (i : Fin N) :
    Run (nodeProgram Γ) (fun m l => noSelfLookup m l = true) (startNode config (key i) (offset i))
      (nodeConfig i (m.network Γ)) := by
  have hnet : Run (networkProgram Γ N) (fun m l => ∀ ch c rest, l = .run ch → m.stack = .app i c :: rest →
      noSelfLookup (nodeConfig i m) (.run ch.toChoice) = true) (startNetwork (fun _ => config) key offset limit)
      (m.network Γ) := by
    refine ExperimentAux.network_of_run h ?_
    rintro m r l hr - hl ch c rest rfl hstack
    have horder := overErase_of_run hr
    unfold usedLabel at hl
    split at hl
    · next x zs hm =>
      rw [hm] at horder
      have hused : (m.network Γ).stack = x :: zs.flatMap ClientCall.used := congrArg (List.flatMap ClientCall.used) hm
      rw [hstack] at hused
      obtain ⟨rfl, hrest⟩ := List.cons.inj hused
      unfold noSelfLookup
      split
      · next ch' fv t cb rest' hl' hnode =>
        have hnode' : (nodeConfig i (m.network Γ)).stack = c :: rest.flatMap (NetworkCall.within i) := by
          rw [nodeConfig, hstack, List.flatMap_cons, NetworkCall.within_app_self, List.singleton_append]
        rw [hnode'] at hnode
        obtain ⟨rfl, hrest'⟩ := List.cons.inj hnode
        refine decide_eq_true (fun hmem => ?_)
        rw [← hrest', hrest] at hmem
        obtain ⟨y, hy, hyt⟩ := List.mem_flatMap.1 hmem
        obtain ⟨z, hz, hzy⟩ := List.mem_flatMap.1 hy
        obtain rfl : y = .app i (.eraseFinder t) := NetworkCall.eq_app_of_mem_within hyt
        obtain rfl : z = .inside (.app i (.eraseFinder t)) := by
          cases z with
          | inside x => rw [List.mem_singleton.1 hzy]
          | _ => cases hzy
        obtain ⟨c', heq, hanswer⟩ := (List.pairwise_cons.1 horder).1 _ hz i t rfl
        cases heq
        cases hanswer
      · rfl
    · cases hl
    · cases hl
  refine run_nodeConfig (fun m ch c rest ho hstack => ho ch c rest rfl hstack)
    (fun m l hm => ?_) hnet
  unfold noSelfLookup
  split
  · next ch fv t cb rest hstack =>
    rcases hm ch _ _ rfl hstack with h | ⟨a, h⟩ <;> cases h
  · rfl

/-! ## What was handed to lookups -/

/-- The callback set that a call of the network hands to a lookup of a node. -/
def lookupOf : NetworkCall N → List (Fin N × CallbackSet FindNodesFn)
  | .app i (.lookup _ _ cb) => [(i, cb)]
  | _ => []

/-- The same for a call of the program that waits, and for one that ran. -/
def lookupWaiting : ProgramCall N → List (Fin N × CallbackSet FindNodesFn)
  | .inside x => lookupOf x
  | .enter x => lookupOf x
  | .own _ => []

def lookupRan : ProgramCall N → List (Fin N × CallbackSet FindNodesFn)
  | .inside x => lookupOf x
  | _ => []

/-- The functions of fetches in a callback set, each with the node that was asked. -/
def tokens (p : Fin N × CallbackSet FindNodesFn) : List (Fin N × UserFn) := p.2.fetches.map (fun k => (p.1, k))

/-- The fetches that were started, each with the node that was asked. -/
def started (fetches : List (Fetch N)) : List (Fin N × UserFn) := fetches.zipIdx.map (fun p => (p.1.fetcher, p.2))

/-- All callback sets that were handed to lookups, or are about to be. -/
def handed (m : ExperimentConfig N) : List (Fin N × CallbackSet FindNodesFn) :=
  m.trace.flatMap (fun e => lookupRan e.1) ++ m.stack.flatMap lookupWaiting

/-- Each fetch was handed to one lookup, and the callback sets of all lookups are paired. -/
structure Handed (m : ExperimentConfig N) : Prop where
  tokens : ((handed m).flatMap FetchesAux.tokens).Perm (started m.state.2.fetches)
  paired : ∀ p ∈ handed m, p.2.Paired

/-- The lookups that a node starts of itself are no fetches. -/
theorem lookup_of_makes {ch : Choice} {n : KademliaNode} {c : Call} {fv : Bool} {t : KademliaKey}
    {cb : CallbackSet FindNodesFn} (h : Makes Γ ch n c (.lookup fv t cb)) : cb.fetches = [] ∧ cb.Paired := by
  cases h with
  | storeLookup => exact ⟨rfl, rfl⟩
  | refreshLookup => exact ⟨rfl, rfl⟩

/-- The network hands nothing to a lookup but what its nodes do. -/
theorem lookupOf_made {ch : NetworkChoice} {w : CentralizedNetwork N} {x y : NetworkCall N}
    (h : NetworkMakes Γ ch w x y) (hx : ∀ i c, x = .call i c → c.fromNetwork = true) :
    ∀ p ∈ lookupOf y, p.2.fetches = [] ∧ p.2.Paired := by
  intro p hp
  cases h with
  | @inside i c z hz =>
    cases z with
    | lookup fv t cb =>
      rw [List.mem_singleton.1 hp]
      exact lookup_of_makes hz
    | _ => cases hp
  | @handOn i c =>
    have hc := hx i c rfl
    cases c with
    | lookup fv t cb => cases hc
    | _ => cases hp
  | _ => cases hp

/-- The lambdas of a fetch are paired. -/
theorem paired_fetch (k : UserFn) : (CallbackSet.of (FindNodesFn.fetchSuccess (.of k k)) (.fetchFailure (.of k k))).Paired := rfl

/-- What a call of the experiment does to the slots and the fetches, with the calls of the network that it makes. -/
inductive Books (r : ExperimentChoice) (epoch : Time) (t : Experiment N) :
    ExperimentCall N → Experiment N → List (NetworkCall N) → Prop where
  | same {d t' xs} (hnone : xs.flatMap lookupOf = []) (hnodes : t'.nodes = t.nodes) (hwaiting : t'.waiting = t.waiting)
      (hfetches : t'.fetches = t.fetches) : Books r epoch t d t' xs
  | main {n i t' xs} (hnone : xs.flatMap lookupOf = []) (hi : i.val = t.made) (hnodes : t'.nodes = t.nodes ++ [i])
      (hwaiting : t'.waiting = t.waiting) (hfetches : t'.fetches = t.fetches) : Books r epoch t (.main n) t' xs
  | addNodes {j n a i t' xs} (hnone : xs.flatMap lookupOf = []) (hi : i.val = t.made) (hnodes : t'.nodes = t.nodes ++ [i])
      (hwaiting : t'.waiting = t.waiting) (hfetches : t'.fetches = t.fetches) : Books r epoch t (.addNodes j n a) t' xs
  | experiment {t'} (hnodes : t'.nodes = t.nodes) (hwaiting : t'.waiting = List.replicate t.nodes.length false)
      (hfetches : t'.fetches = t.fetches) : Books r epoch t .experiment t' []
  | install {v new t'} (hnodes : t'.nodes = t.nodes.set v new) (hwaiting : t'.waiting = t.waiting.set v false)
      (hfetches : t'.fetches = t.fetches) : Books r epoch t (.install v new) t' []
  | search {f key t'} (hnode : t.nodes[f.nodeIndex]? = some f.fetcher) (hidle : t.waiting[f.nodeIndex]? = some false)
      (hkey : t.storedDataKeys[f.targetDataIndex]? = some key) (hnow : f.now = epoch) (hnodes : t'.nodes = t.nodes)
      (hwaiting : t'.waiting = t.waiting.set f.nodeIndex true) (hfetches : t'.fetches = t.fetches ++ [f]) :
      Books r epoch t .search t' [.app f.fetcher (fetch key (.of t.fetches.length t.fetches.length))]

/-- What the experiment hands to lookups: the lambdas of a fetch that it starts. -/
theorem Books.lookups {r : ExperimentChoice} {epoch : Time} {d : ExperimentCall N} {t t' : Experiment N}
    {xs : List (NetworkCall N)} (h : Books r epoch t d t' xs) :
    (xs.flatMap lookupOf = [] ∧ t'.fetches = t.fetches) ∨
      ∃ f key, t'.fetches = t.fetches ++ [f] ∧
        xs = [.app f.fetcher (fetch key (.of t.fetches.length t.fetches.length))] := by
  cases h with
  | same hnone _ _ hfetches | main hnone _ _ _ hfetches | addNodes hnone _ _ _ hfetches => exact Or.inl ⟨hnone, hfetches⟩
  | experiment _ _ hfetches | install _ _ hfetches => exact Or.inl ⟨rfl, hfetches⟩
  | search _ _ _ _ _ _ hfetches => exact Or.inr ⟨_, _, hfetches, rfl⟩

/-- The books of a call of the experiment, which prints nothing but that it replaces a node. -/
theorem books_of_own {r : ExperimentChoice} {d : ExperimentCall N} {s : RecordedNetwork N} {t t' : Experiment N}
    {xs : List (NetworkCall N)} {ds : List (ExperimentCall N)} (he : Experiment.exec Γ D r d s t = some (t', xs, ds)) :
    Books r s.network.epoch t d t' xs ∧
      (t'.transcript = t.transcript ∨ ∃ v, t'.transcript = .replaced v :: t.transcript) := by
  cases d with
  | main n =>
    obtain ⟨p, hp, heq⟩ := Option.map_eq_some_iff.1 he
    obtain ⟨hi, hp2⟩ := ExperimentAux.create_cases hp
    rw [hp2] at heq
    cases heq
    exact ⟨.main rfl hi rfl rfl rfl, Or.inl rfl⟩
  | startup n z => cases he; exact ⟨.same rfl rfl rfl rfl, Or.inl rfl⟩
  | addNodes j n a =>
    simp only [Experiment.exec, Experiment.addNodes] at he
    split at he
    · obtain ⟨p, hp, heq⟩ := Option.map_eq_some_iff.1 he
      obtain ⟨hi, hp2⟩ := ExperimentAux.create_cases hp
      rw [hp2] at heq
      cases heq
      exact ⟨.addNodes rfl hi rfl rfl rfl, Or.inl rfl⟩
    · cases he
      exact ⟨.same rfl rfl rfl rfl, Or.inl rfl⟩
  | ticks k => cases k <;> (cases he; exact ⟨.same rfl rfl rfl rfl, Or.inl rfl⟩)
  | experiment => cases he; exact ⟨.experiment rfl rfl rfl, Or.inl rfl⟩
  | init => cases he; exact ⟨.same rfl rfl rfl rfl, Or.inl rfl⟩
  | storeAll j =>
    simp only [Experiment.exec, Experiment.storeAll, Option.some.injEq] at he
    split at he <;> (cases he; exact ⟨.same rfl rfl rfl rfl, Or.inl rfl⟩)
  | run j => cases he; exact ⟨.same rfl rfl rfl rfl, Or.inl rfl⟩
  | replace =>
    simp only [Experiment.exec, Experiment.replace, Option.ite_none_left_eq_some] at he
    obtain ⟨-, he⟩ := he
    obtain ⟨old, -, he⟩ := Option.bind_eq_some_iff.1 he
    obtain ⟨p, hp, heq⟩ := Option.map_eq_some_iff.1 he
    rw [(ExperimentAux.create_cases hp).2] at heq
    cases heq
    exact ⟨.same rfl rfl rfl rfl, Or.inr ⟨_, rfl⟩⟩
  | install v new =>
    obtain ⟨z, -, heq⟩ := Option.map_eq_some_iff.1 he
    cases heq
    exact ⟨.install rfl rfl rfl, Or.inl rfl⟩
  | introduce n1 n2 => cases he; exact ⟨.same rfl rfl rfl rfl, Or.inl rfl⟩
  | search =>
    simp only [Experiment.exec, Experiment.search] at he
    split at he
    · next node key hnode hwaiting hkey =>
      cases he
      exact ⟨.search (f := ⟨node, r.nodeIndex, r.targetDataIndex, s.network.epoch⟩) hnode hwaiting hkey rfl rfl rfl rfl,
        Or.inl rfl⟩
    · cases he
      exact ⟨.same rfl rfl rfl rfl, Or.inl rfl⟩
    · cases he

/-- A call of the network leaves the fetches, the slots and their nodes as they are. -/
theorem watch_fetches (x : NetworkCall N) (s : RecordedNetwork N) (t : Experiment N) :
    (Experiment.watch x s t).fetches = t.fetches ∧ (Experiment.watch x s t).nodes = t.nodes := by
  unfold Experiment.watch
  split
  · split
    · exact ⟨rfl, rfl⟩
    · split <;> exact ⟨rfl, rfl⟩
  · exact ⟨rfl, rfl⟩
  · exact ⟨rfl, rfl⟩

theorem waiting_enter (xs : List (NetworkCall N)) :
    (xs.map (ClientCall.enter (δ := ExperimentCall N))).flatMap lookupWaiting = xs.flatMap lookupOf := List.flatMap_map ..

theorem waiting_inside (xs : List (NetworkCall N)) :
    (xs.map (ClientCall.inside (δ := ExperimentCall N))).flatMap lookupWaiting = xs.flatMap lookupOf := List.flatMap_map ..

theorem waiting_own (ds : List (ExperimentCall N)) :
    (ds.map (ClientCall.own (κ := NetworkCall N))).flatMap lookupWaiting = [] := by
  rw [List.flatMap_map]
  exact List.flatMap_eq_nil_iff.2 (fun _ _ => rfl)

/-- What is handed to a lookup by nobody's fetch changes nothing. -/
theorem Handed.add {fetches : List (Fetch N)} {as bs cs : List (Fin N × CallbackSet FindNodesFn)}
    (h : ((as ++ bs).flatMap FetchesAux.tokens).Perm (started fetches)) (hpaired : ∀ p ∈ as ++ bs, p.2.Paired)
    (hcs : ∀ p ∈ cs, p.2.fetches = [] ∧ p.2.Paired) :
    ((as ++ (cs ++ bs)).flatMap FetchesAux.tokens).Perm (started fetches) ∧ ∀ p ∈ as ++ (cs ++ bs), p.2.Paired := by
  have hnil : cs.flatMap FetchesAux.tokens = [] := by
    refine List.flatMap_eq_nil_iff.2 (fun p hp => ?_)
    rw [FetchesAux.tokens, (hcs p hp).1]
    rfl
  constructor
  · rw [List.flatMap_append, List.flatMap_append, hnil, List.nil_append, ← List.flatMap_append]
    exact h
  · intro p hp
    rcases List.mem_append.1 hp with hp | hp
    · exact hpaired p (List.mem_append_left _ hp)
    · rcases List.mem_append.1 hp with hp | hp
      · exact (hcs p hp).2
      · exact hpaired p (List.mem_append_right _ hp)

/-- Each fetch is handed to one lookup of the node that was asked. -/
theorem handed_of_run (h : Run (experimentProgram Γ D N) ok (startExperiment config key offset limit nNodes) m) : Handed m := by
  refine h.invariant (I := Handed) ⟨List.Perm.refl _, fun p hp => (by cases hp)⟩ ?_
  intro m l m' hr hI _ hs
  have hnet : Run (networkProgram Γ N) (fun _ _ => True) (startNetwork (fun _ => config) key offset limit)
      (ExperimentConfig.network Γ m) :=
    ExperimentAux.network_of_run hr (fun _ _ _ _ _ _ => trivial)
  have hlayered := NetworkCall.layered_of_run hnet
  cases hs with
  | @run r c rest s tr s' cs hw he =>
    obtain ⟨htokens, hpaired⟩ := hI
    have hold : handed ⟨s, c :: rest, tr⟩ =
        tr.flatMap (fun e => lookupRan e.1) ++ (lookupWaiting c ++ rest.flatMap lookupWaiting) := rfl
    rw [hold] at htokens hpaired
    cases c with
    | own d =>
      obtain ⟨t, xs, ds, hexec, rfl, rfl⟩ := ExperimentAux.exec_own he
      have hnew : handed ⟨(s.1, t), (xs.map .enter ++ ds.map .own) ++ rest, (.own d, r) :: tr⟩ =
          tr.flatMap (fun e => lookupRan e.1) ++ (xs.flatMap lookupOf ++ rest.flatMap lookupWaiting) := by
        simp only [handed, List.flatMap_append, List.flatMap_cons, waiting_enter, waiting_own, List.append_nil]
        rfl
      rcases (books_of_own hexec).1.lookups with ⟨hnone, hfetches⟩ | ⟨f, k, hfetches, hxs⟩
      · refine ⟨?_, ?_⟩
        · rw [hnew, hnone, hfetches]
          exact htokens
        · rw [hnew, hnone]
          exact hpaired
      · have hnone : lookupWaiting (.own d : ProgramCall N) = [] := rfl
        have hlookup : xs.flatMap lookupOf =
            [(f.fetcher, .of (.fetchSuccess (.of s.2.fetches.length s.2.fetches.length))
              (.fetchFailure (.of s.2.fetches.length s.2.fetches.length)))] := by
          rw [hxs]
          rfl
        have hstarted : started t.fetches = started s.2.fetches ++ [(f.fetcher, s.2.fetches.length)] := by
          rw [started, hfetches, List.zipIdx_append, List.map_append]
          simp [started]
        refine ⟨?_, ?_⟩
        · rw [hnew, hlookup, hstarted, List.singleton_append, List.flatMap_append, List.flatMap_cons]
          rw [hnone, List.nil_append, List.flatMap_append] at htokens
          exact List.perm_middle.trans ((htokens.cons _).trans (List.perm_append_singleton _ _).symm)
        · rw [hnew, hlookup]
          intro p hp
          rcases List.mem_append.1 hp with hp | hp
          · exact hpaired p (List.mem_append_left _ hp)
          · rcases List.mem_cons.1 hp with rfl | hp
            · exact paired_fetch _
            · exact hpaired p (List.mem_append_right _ hp)
    | enter x =>
      obtain ⟨-, hp⟩ := Option.ite_none_right_eq_some.1 he
      cases hp
      exact ⟨htokens, hpaired⟩
    | inside x =>
      -- What was handed by the call itself ran, and waits no more.
      have hmoved : ((lookupOf x ++ tr.flatMap (fun e => lookupRan e.1)) ++ rest.flatMap lookupWaiting).Perm
          (tr.flatMap (fun e => lookupRan e.1) ++ (lookupOf x ++ rest.flatMap lookupWaiting)) := by
        rw [← List.append_assoc]
        exact List.perm_append_comm.append_right _
      have hbase := ((hmoved.flatMap_right FetchesAux.tokens).trans htokens)
      have hbasePaired : ∀ p ∈ (lookupOf x ++ tr.flatMap (fun e => lookupRan e.1)) ++ rest.flatMap lookupWaiting, p.2.Paired :=
        fun p hp => hpaired p (hmoved.mem_iff.1 hp)
      rcases ExperimentAux.exec_inside he with ⟨-, rfl, rfl⟩ | ⟨w, xs, hw, rfl, rfl⟩
      · exact ⟨hbase, hbasePaired⟩
      · have hcall : ∀ i c, x = .call i c → c.fromNetwork = true := by
          rintro i c rfl
          exact hlayered.events i c List.mem_cons_self
        have hcs : ∀ p ∈ xs.flatMap lookupOf, p.2.fetches = [] ∧ p.2.Paired := by
          intro p hp
          obtain ⟨y, hy, hp⟩ := List.mem_flatMap.1 hp
          exact lookupOf_made (CentralizedNetwork.exec_makes hw y hy) hcall p hp
        obtain ⟨h1, h2⟩ := Handed.add hbase hbasePaired hcs
        have hnew : handed ⟨({ s.1.record x with network := w }, Experiment.watch x s.1 s.2),
            xs.map .inside ++ rest, (.inside x, r) :: tr⟩ =
            (lookupOf x ++ tr.flatMap (fun e => lookupRan e.1)) ++ (xs.flatMap lookupOf ++ rest.flatMap lookupWaiting) := by
          simp only [handed, List.flatMap_append, List.flatMap_cons, waiting_inside]
          rfl
        refine ⟨?_, ?_⟩
        · rw [hnew, (watch_fetches x s.1 s.2).1]
          exact h1
        · rw [hnew]
          exact h2
  | event hc => cases hc
  | reentry hf hc => cases hc
  | leave hf => cases hf

/-! ## Each fetch is answered once at most -/

/-- The node that a call runs a lambda of a fetch in, and the fetch. -/
def fetchedBy : ProgramCall N → List (Fin N × UserFn)
  | .inside (.app i (.fetched k _)) => [(i, k)]
  | _ => []

theorem count_flatMap_congr {α β γ : Type} [BEq β] [BEq γ] {l : List α} {f : α → List β} {g : α → List γ} {x : β}
    {y : γ} (h : ∀ a, (f a).count x = (g a).count y) : (l.flatMap f).count x = (l.flatMap g).count y := by
  rw [List.count_flatMap, List.count_flatMap]
  exact congrArg List.sum (List.map_congr_left (fun a _ => h a))

/-- The calls of a node in the network of the program, read off the calls of the program. -/
theorem nodeConfig_network (i : Fin N) (m : ExperimentConfig N) : nodeConfig i (m.network Γ) =
    ⟨m.state.1.network.applications i, m.stack.flatMap (fun x => x.used.flatMap (NetworkCall.within i)),
      m.trace.flatMap (fun e => (ranUsed (recordedProgram Γ N) e).flatMap (runsIn i))⟩ := by
  have hstack : (m.stack.flatMap ClientCall.used).flatMap (NetworkCall.within i) =
      m.stack.flatMap (fun x => x.used.flatMap (NetworkCall.within i)) := List.flatMap_assoc
  have htrace : (m.trace.flatMap (ranUsed (recordedProgram Γ N))).flatMap (runsIn i) =
      m.trace.flatMap (fun e => (ranUsed (recordedProgram Γ N) e).flatMap (runsIn i)) := List.flatMap_assoc
  rw [← hstack, ← htrace]
  rfl

/-- What ran in a node of the program, of what outside code and the network do not do. -/
theorem ran_flatMap {γ : Type} {f : Call → List γ} (huser : f .userCode = []) (hout : f (.base .unqueueOut) = [])
    (hset : ∀ a, f (.base (.setAddress a)) = []) (i : Fin N) (e : ProgramCall N × NetworkChoice × ExperimentChoice) :
    ((ranUsed (recordedProgram Γ N) e).flatMap (runsIn i)).flatMap (fun e => f e.1) =
      (e.1.used.flatMap (NetworkCall.within i)).flatMap f := by
  obtain ⟨x, r⟩ := e
  cases x with
  | own d => rfl
  | enter x => rfl
  | inside x =>
    have hused : (ClientCall.inside (δ := ExperimentCall N) x).used.flatMap (NetworkCall.within i) = x.within i :=
      List.append_nil _
    rw [hused]
    by_cases hwaits : x.isUserCode = true
    · have hran : ranUsed (recordedProgram Γ N) (ClientCall.inside (δ := ExperimentCall N) x, r) = [] := if_pos hwaits
      rw [hran]
      cases x with
      | app j c =>
        cases c with
        | userCode =>
          simp only [NetworkCall.within]
          split
          · exact (List.append_nil _).trans huser |>.symm
          · rfl
        | _ => cases hwaits
      | _ => cases hwaits
    · have hran : ranUsed (recordedProgram Γ N) (ClientCall.inside (δ := ExperimentCall N) x, r) = [(x, r.1)] := if_neg hwaits
      rw [hran, List.flatMap_singleton]
      cases x with
      | app j c =>
        simp only [runsIn, NetworkCall.within]
        split <;> rfl
      | outbound j total =>
        simp only [runsIn]
        split
        · exact (List.append_nil _).trans hout
        · rfl
      | settle j a =>
        simp only [runsIn]
        split
        · exact (List.append_nil _).trans (hset a)
        · rfl
      | _ => rfl

/-- What is counted of a call of a node, in the calls of the program. -/
theorem count_within {γ : Type} [BEq γ] [LawfulBEq γ] {F : ProgramCall N → List (Fin N × γ)} {f : Call → List γ} (i : Fin N) (k : γ)
    (happ : ∀ j c, F (.inside (.app j c)) = (f c).map (fun a => (j, a)))
    (hother : ∀ x, (∀ j c, x ≠ .inside (.app j c)) → F x = []) (x : ProgramCall N) :
    (F x).count (i, k) = ((x.used.flatMap (NetworkCall.within i)).flatMap f).count k := by
  by_cases hx : ∃ j c, x = .inside (.app j c)
  · obtain ⟨j, c, rfl⟩ := hx
    have hused : (ClientCall.inside (δ := ExperimentCall N) (.app j c)).used.flatMap (NetworkCall.within i) =
        if j = i then [c] else [] := List.append_nil _
    rw [happ, hused]
    split
    · next hj =>
      subst hj
      rw [List.flatMap_singleton]
      exact List.count_map_of_injective _ _ (fun a b h => (Prod.mk.inj h).2) k
    · next hj =>
      refine List.count_eq_zero.2 (fun hmem => ?_)
      obtain ⟨a, -, ha⟩ := List.mem_map.1 hmem
      exact hj (Prod.mk.inj ha).1
  · have hx : ∀ j c, x ≠ .inside (.app j c) := fun j c h => hx ⟨j, c, h⟩
    rw [hother x hx]
    cases x with
    | inside y =>
      have hused : (ClientCall.inside (δ := ExperimentCall N) y).used.flatMap (NetworkCall.within i) = y.within i :=
        List.append_nil _
      rw [hused, NetworkCall.within_eq_nil_of_ne (fun c h => hx i c (congrArg _ h))]
      rfl
    | _ => rfl

/-- A lambda of a fetch runs in the node that was asked, and once at most. -/
theorem fetched_le_started (h : Run (experimentProgram Γ D N) ok (startExperiment config key offset limit nNodes) m)
    (i : Fin N) (k : UserFn) : (tally fetchedBy m).count (i, k) ≤ (started m.state.2.fetches).count (i, k) := by
  have hhanded := handed_of_run h
  have hfetched : ∀ x : ProgramCall N, (fetchedBy x).count (i, k) =
      ((x.used.flatMap (NetworkCall.within i)).flatMap Call.fetches).count k :=
    count_within i k (fun j c => by cases c <;> rfl) (fun x hx => by
      cases x with
      | inside y => cases y with
        | app j c => exact absurd rfl (hx j c)
        | _ => rfl
      | _ => rfl)
  have hcaller : ∀ x : ProgramCall N, ((lookupRan x).flatMap tokens).count (i, k) =
      ((x.used.flatMap (NetworkCall.within i)).flatMap
        (fun c => c.caller.flatMap (fun y => y.callback.fetches))).count k :=
    count_within i k (fun j c => by
      cases c with
      | lookup fv t cb => simp [lookupRan, lookupOf, tokens, Call.caller]
      | _ => rfl) (fun x hx => by
      cases x with
      | inside y => cases y with
        | app j c => exact absurd rfl (hx j c)
        | _ => rfl
      | _ => rfl)
  have hleft : (tally fetchedBy m).count (i, k) = (tally Call.fetches (nodeConfig i (m.network Γ))).count k := by
    rw [nodeConfig_network, tally, tally, List.count_append, List.count_append, List.flatMap_assoc, List.flatMap_assoc]
    refine congrArg₂ (· + ·) (count_flatMap_congr (fun e => ?_)) (count_flatMap_congr hfetched)
    rw [hfetched, ran_flatMap rfl rfl (fun _ => rfl)]
  have hran : ∀ e ∈ m.trace, ((ranUsed (recordedProgram Γ N) e).flatMap (runsIn i)).flatMap (fun e => e.1.caller) =
      (e.1.used.flatMap (NetworkCall.within i)).flatMap Call.caller := fun e _ => ran_flatMap rfl rfl (fun _ => rfl) i e
  have hcallers : callers (nodeConfig i (m.network Γ)).trace =
      m.trace.flatMap (fun e => (e.1.used.flatMap (NetworkCall.within i)).flatMap Call.caller) := by
    rw [nodeConfig_network, callers, List.flatMap_assoc]
    exact List.flatMap_congr hran
  have hright : ((callers (nodeConfig i (m.network Γ)).trace).flatMap (fun x => x.callback.fetches)).count k =
      ((m.trace.flatMap (fun e => lookupRan e.1)).flatMap tokens).count (i, k) := by
    rw [hcallers, List.flatMap_assoc, List.flatMap_assoc]
    refine (count_flatMap_congr (fun e => ?_)).symm
    exact (hcaller _).trans (congrArg (List.count k) List.flatMap_assoc.symm)
  have hpaired : ∀ x ∈ callers (nodeConfig i (m.network Γ)).trace, x.callback.Paired := by
    intro x hx
    rw [hcallers] at hx
    obtain ⟨e, he, hcx⟩ := List.mem_flatMap.1 hx
    obtain ⟨c, hyc, hxc⟩ := List.mem_flatMap.1 hcx
    obtain ⟨y, hy, hc⟩ := List.mem_flatMap.1 hyc
    obtain rfl := NetworkCall.eq_app_of_mem_within hc
    refine hhanded.paired (i, x.callback) (List.mem_append_left _ (List.mem_flatMap.2 ⟨e, he, ?_⟩))
    obtain ⟨z, r⟩ := e
    cases z with
    | inside y' =>
      obtain rfl := List.mem_singleton.1 hy
      cases c with
      | lookup fv t cb =>
        rw [List.mem_singleton.1 hxc]
        exact List.mem_singleton_self _
      | _ => cases hxc
    | _ => cases hy
  rw [hleft]
  refine (fetched_le_callers (fun _ _ h => h) (noSelfLookup_of_run h i) hpaired k).trans ?_
  rw [hright, ← hhanded.tokens.count_eq, handed, List.flatMap_append, List.count_append]
  exact Nat.le_add_right _ _

end FetchesAux

end Dhtsim
