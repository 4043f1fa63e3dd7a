import Dhtsim.Lemmas.Callers
import Dhtsim.Model.Outside

/-!
# The kind of answer

A lookup ends in the way of its finder, which is that of whoever started it. Whoever joins gets the same answer, of the kind he
asked for or not.
-/

namespace Dhtsim

open CallMachine KademliaNode CallersAux

/-- Nobody joins a lookup of the other kind, or one whose callbacks are running, and a reply with a value ends only a lookup for
a value. -/
def sameKind (Γ : Ctx) (m : NodeConfig) (l : NodeLabel) : Bool :=
  noSelfLookup m l &&
    match l, m.stack with
    | .run _, .lookup findValue t _ :: _ =>
      (m.state.nodesBeingFound.find? t).all (fun nf => decide (nf.findValue = findValue))
    | .run ch, .base (.callback true (.findSuccess t _) msg) :: _ =>
      (m.state.nodesBeingFound.find? t).all (fun nf =>
        !((readFindNodes Γ ch msg).findValue && (readFindNodes Γ ch msg).valueFound) || nf.findValue)
    | _, _ => true

/-- An answer is of the kind that a caller asked for: for a value it is a value or a failure, otherwise the contacts that
replied. -/
def Caller.Suits (x : Caller) (replied : List BucketEntry) (success : Bool) (result : FindNodesMessage) : Prop :=
  if x.findValue then result.valueFound = success
  else success = true ∧ result.findValue = false ∧ result.nearest.Perm replied

/-- A function handed to `fetch` that a call runs. -/
def Call.answersFetch : Call → List UserFn
  | .fetched fn _ => [fn]
  | _ => []

namespace KindsAux

variable {Γ : Ctx} {config : Config} {key t : KademliaKey} {offset : Time} {ch : Choice} {c : Call} {n : KademliaNode}
  {p : KademliaNode × List Call} {rest : List Call} {tr : NodeTrace} {m : NodeConfig} {x : Caller}

theorem noSelfLookup_of_sameKind (m : NodeConfig) (l : NodeLabel) (h : sameKind Γ m l = true) : noSelfLookup m l = true :=
  (Bool.and_eq_true_iff.1 h).1

/-- Whoever waits after a call waited before, or it is his call. -/
theorem waitingFor_cons (hx : x ∈ waitingFor t ((c, ch) :: tr)) :
    x ∈ waitingFor t tr ∨ c = .lookup x.findValue t x.callback := by
  rw [waitingFor] at hx
  split at hx
  · cases hx
  rcases List.mem_append.1 hx with hx | hx
  · exact Or.inl hx
  · obtain ⟨hmem, ht⟩ := List.mem_filter.1 hx
    obtain rfl : x.target = t := of_decide_eq_true ht
    unfold Call.caller at hmem
    split at hmem
    · rw [List.mem_singleton.1 hmem]
      exact Or.inr rfl
    · cases hmem

/-- Everybody who waits asked for what the lookup was started for. -/
theorem kind_of_run (h : Run (nodeProgram Γ) (fun m l => sameKind Γ m l = true) (startNode config key offset) m)
    (t : KademliaKey) : ∀ x ∈ waitingFor t m.trace, (startedBy t m.trace).head? = some x.findValue := by
  refine h.invariant (I := fun m => ∀ x ∈ waitingFor t m.trace, (startedBy t m.trace).head? = some x.findValue)
    (fun x hx => absurd hx List.not_mem_nil) ?_
  intro m l m' hr hI hok hs
  have hstate := lookupState_of_run True (fun _ _ _ => Or.inl trivial) hr t
  have hheld := held_of_run noSelfLookup_of_sameKind hr t
  cases hs with
  | @run ch c rest n tr n' cs hw he =>
    intro x hx
    have hx := waitingFor_cons hx
    rw [startedBy, sinceErase]
    by_cases hc : c = .eraseFinder t
    · -- nobody waits for a lookup whose callbacks have run
      subst hc
      rcases hx with hx | hx
      · have hempty : waitingFor t tr = [] := by
          rcases hheld with ⟨-, -, hw⟩ | ⟨-, hw⟩ | ⟨_, -, hnot, -⟩
          · exact hw
          · exact hw
          · exact absurd List.mem_cons_self hnot
        rw [hempty] at hx
        cases hx
      · cases hx
    · rw [if_neg hc, List.head?_append]
      rcases hx with hx | rfl
      · have hstarted : (sinceErase t (fun e => e.1.starts t) tr).head? = some x.findValue := hI x hx
        rw [hstarted]
        rfl
      · have hstarts : (Call.lookup x.findValue t x.callback).starts t = [x.findValue] := if_pos rfl
        rcases hstate with ⟨hf, -, hview⟩ | ⟨nf, φ, hf, -, hp⟩
        · have hnone : sinceErase t (fun e => e.1.starts t) tr = [] := congrArg LookupView.started hview
          rw [hnone, hstarts]
          rfl
        · have hstarted : (sinceErase t (fun e => e.1.starts t) tr).head? = some nf.findValue := hp.started
          have hkind := (Bool.and_eq_true_iff.1 hok).2
          simp only [hf, Option.all_some, decide_eq_true_eq] at hkind
          rw [hstarted, hkind]
          rfl
  | event hc => exact hI
  | reentry hf hc => exact hI
  | leave hf => exact hI

/-- A reply with a value was to a lookup for a value. -/
theorem valued_of_run (h : Run (nodeProgram Γ) (fun m l => sameKind Γ m l = true) (startNode config key offset) m)
    (t : KademliaKey) : ∀ r ∈ repliedTo Γ t m.trace, (r.2.findValue && r.2.valueFound) = true →
      (startedBy t m.trace).head? = some true := by
  intro r hr hv
  obtain ⟨findValue, hstarted, hkind⟩ := replied_of_run True
    (P := fun findValue fm => (fm.findValue && fm.valueFound) = true → findValue = true)
    (fun _ _ _ => Or.inl trivial) (fun n t top msg rest tr ch nf h hf hv => by
      have hkind := (Bool.and_eq_true_iff.1 h).2
      simp only [hf, Option.all_some, hv, Bool.not_true, Bool.false_or] at hkind
      exact hkind) h t r hr
  rw [hstarted, hkind hv]

/-- When a lookup ends, the answer is of the kind that everybody who waits asked for. -/
theorem suits_of_ends {success : Bool}
    (hr : Run (nodeProgram Γ) (fun m l => sameKind Γ m l = true) (startNode config key offset) ⟨n, c :: rest, tr⟩)
    (hc : c.ends = some (t, success)) (he : exec Γ ch c n = some p) :
    ∃ nf result, p.2 = complete nf t success result ∧
      (∀ success, nf.findNodesCallback.fns success = (waitingFor t tr).flatMap (·.callback.fns success)) ∧
      ∀ x ∈ waitingFor t tr, x.Suits ((repliedTo Γ t tr).map (·.1)) success result := by
  have hstate := lookupState_of_run True (fun _ _ _ => Or.inl trivial) hr t
  have hkind := kind_of_run hr t
  have hvalued := valued_of_run hr t
  obtain ⟨nf, result, hf, hcs, hfns⟩ := ends_calls noSelfLookup_of_sameKind hr hc he
  -- the call stands for the lookup, so its finder shows the progress of the search
  have hfront : ∀ φ, (LookupAux.tracker t).ofCall c = [φ] → c.erases = none →
      Progress t (lookupView Γ t (c :: rest) tr) nf φ := by
    intro φ hφ herases
    have hpc : (LookupAux.tracker t).pending n (c :: rest) = φ :: (LookupAux.tracker t).pending n rest := by
      rw [Tracker.pending_cons herases, hφ]
      rfl
    obtain ⟨nf', hf', -, hp⟩ := LookupAux.lookupState_front hstate hpc
    cases hf.symm.trans hf'
    exact hp
  unfold Call.ends at hc
  split at hc
  · cases hc
    have hp := hfront (.exhausted true) (if_pos rfl) rfl
    obtain ⟨-, nf', h2, h3⟩ := findNodesFail_eq he
    cases hf.symm.trans h2
    refine ⟨nf, _, h3, hfns, fun x hx => ?_⟩
    have hx := hkind x hx
    have hstarted : (startedBy t tr).head? = some nf.findValue := hp.started
    rw [hstarted, (hp.exhausted _ rfl).2] at hx
    rw [Caller.Suits, ← Option.some.inj hx, if_pos rfl]
    rfl
  · cases hc
    have hp := hfront (.exhausted false) (if_pos rfl) rfl
    obtain ⟨nf', h2, -, h3⟩ := findNodesFinish_eq he
    cases hf.symm.trans h2
    refine ⟨nf, _, h3, hfns, fun x hx => ?_⟩
    have hx := hkind x hx
    have hstarted : (startedBy t tr).head? = some nf.findValue := hp.started
    rw [hstarted, (hp.exhausted _ rfl).2] at hx
    rw [Caller.Suits, ← Option.some.inj hx, if_neg (by simp)]
    exact ⟨rfl, rfl, (Γ.sort_perm _ _).trans hp.contacted⟩
  · cases hc
    have hp := hfront .valued (if_pos rfl) rfl
    obtain ⟨-, nf', h2, h3⟩ := findValueFinish_eq he
    cases hf.symm.trans h2
    refine ⟨nf, _, h3, hfns, fun x hx => ?_⟩
    obtain ⟨r, hr, hv⟩ := hp.valued rfl
    have hx := hkind x hx
    rw [hvalued r hr hv] at hx
    rw [Caller.Suits, ← Option.some.inj hx, if_pos rfl]
    rfl
  · cases hc

end KindsAux

open KindsAux

/-- Every caller of a lookup gets the kind of answer asked for, in three parts, in the runs in which nobody joins a lookup of the
other kind, or one whose callbacks are running, and in which no reply with a value ends a lookup for contacts.
1. When a lookup ends, the functions of everybody who waits for it run next, with a result that suits each of them: who called
   `findValue` gets a value, or a failure; who called `findNodes` gets the contacts that replied. So what a `fetch` that waits
   runs are its functions for success, with the value, or those for failure; and a `store` that waits sends the value to the
   contacts that replied.
2. Everybody who called for a target waits, or was answered when a lookup for the target ended.
3. The functions that have run, and those on the stack, are those of the callers that were answered, each as often. -/
theorem answers_suit {Γ : Ctx} {config : Config} {key : KademliaKey} {offset : Time} {m : NodeConfig}
    (h : Run (nodeProgram Γ) (fun m l => sameKind Γ m l = true) (startNode config key offset) m) :
    (∀ c rest t success ch m', m.stack = c :: rest → c.ends = some (t, success) →
      step (nodeProgram Γ) m (.run ch) = some m' → ∃ nf result, m'.stack = complete nf t success result ++ rest ∧
        (∀ success, nf.findNodesCallback.fns success = (waitingFor t m.trace).flatMap (·.callback.fns success)) ∧
        (∀ x ∈ waitingFor t m.trace, x.Suits ((repliedTo Γ t m.trace).map (·.1)) success result) ∧
        (∀ cb, ⟨true, t, .of (.fetchSuccess cb) (.fetchFailure cb)⟩ ∈ waitingFor t m.trace →
          ((CallbackSet.of (.fetchSuccess cb) (.fetchFailure cb)).fns success).flatMap (fun fn => found fn result) =
            (cb.fns success).map (fun fn => .fetched fn (if success then some result.value else none))) ∧
        ∀ v, ⟨false, t, .of (.storeAt v) .drop⟩ ∈ waitingFor t m.trace →
          ((CallbackSet.of (.storeAt v) .drop).fns success).flatMap (fun fn => found fn result) =
            result.nearest.map (fun e => .storeAt e.address v)) ∧
    (∀ t, ((callers m.trace).filter (fun x => decide (x.target = t))).Perm
      (((answered m.trace).map (·.2)).filter (fun x => decide (x.target = t)) ++ waitingFor t m.trace)) ∧
    (tally Call.answersLookup m).Perm (lookupsDue m.trace) := by
  refine ⟨?_, fun t => callers_perm t m.trace, answered_of_run noSelfLookup_of_sameKind h⟩
  intro c rest t success ch m' hstack hc hs
  obtain ⟨n, stack, tr⟩ := m
  simp only at hstack ⊢
  subst hstack
  cases step_of_eq_some hs with
  | run hw he =>
    obtain ⟨nf, result, hcs, hfns, hsuits⟩ := suits_of_ends h hc he
    refine ⟨nf, result, congrArg (· ++ rest) hcs, hfns, hsuits, fun cb hx => ?_, fun v hx => ?_⟩
    · have hvalue : result.valueFound = success := hsuits _ hx
      cases success with
      | true => simp [CallbackSet.of, CallbackSet.fns, found, hvalue]
      | false => simp [CallbackSet.of, CallbackSet.fns, found]
    · obtain ⟨rfl, -, -⟩ : success = true ∧ _ ∧ _ := hsuits _ hx
      simp [CallbackSet.of, CallbackSet.fns, found]

/-- A lookup for a key, and a fetch of the key that joins it; their only contact times out. -/
def joinedFetch (first : Call) : List NodeLabel :=
  [.enter (.observe 5 (.starting 128))] ++ runs 1 1 ++ [.enter first] ++ runs 2 3 ++
    [.enter (fetch (.starting 3) (.of 3 4))] ++ runs 5 1 ++ [.enter (.tick 2)] ++ runs 6 8 ++ [.enter (.tick 6)] ++ runs 14 8

/-- Two fetches of one key: both fail. -/
theorem answers_suit_sample : ∃ m : NodeConfig,
    lookupsDue m.trace = [(false, .fetchFailure (.of 1 2)), (false, .fetchFailure (.of 3 4))] ∧
      (tally Call.answersLookup m).Perm (lookupsDue m.trace) := by
  obtain ⟨m, hr, hm⟩ := exists_run_of_follow (nodeProgram .reference) (sameKind .reference)
    (sampleNode .zero) (joinedFetch (fetch (.starting 3) (.of 1 2)) ++ runs 22 1 ++ [.leave])
    (fun m => decide (lookupsDue m.trace = [(false, .fetchFailure (.of 1 2)), (false, .fetchFailure (.of 3 4))]))
    (by decide +kernel)
  exact ⟨m, of_decide_eq_true hm, (answers_suit hr).2.2⟩

/-- A fetch that joins a lookup for contacts: the lookup is over, and neither a function for success nor one for failure has
run. -/
theorem answers_suit_false : ∃ m : NodeConfig, Run (nodeProgram .reference) (fun m l => freshTags m l = true)
      (sampleNode .zero) m ∧ m.stack = [] ∧ m.state.dead = false ∧
    callers m.trace = [⟨true, .starting 3, .of (.fetchSuccess (.of 3 4)) (.fetchFailure (.of 3 4))⟩,
      ⟨false, .starting 3, .of (.user 1) (.user 2)⟩] ∧
    m.state.nodesBeingFound.entries = [] ∧ tally Call.answersFetch m = [] := by
  obtain ⟨m, hr, hm⟩ := exists_run_of_follow (nodeProgram .reference) freshTags (sampleNode .zero)
    (joinedFetch (.lookup false (.starting 3) (.of (.user 1) (.user 2))) ++ [.leave] ++ runs 22 6)
    (fun m => m.stack.isEmpty && !m.state.dead &&
      decide (callers m.trace = [⟨true, .starting 3, .of (.fetchSuccess (.of 3 4)) (.fetchFailure (.of 3 4))⟩,
        ⟨false, .starting 3, .of (.user 1) (.user 2)⟩]) &&
      m.state.nodesBeingFound.entries.isEmpty && (tally Call.answersFetch m).isEmpty) (by decide +kernel)
  simp only [Bool.and_eq_true, List.isEmpty_iff, Bool.not_eq_true', decide_eq_true_eq] at hm
  obtain ⟨⟨⟨⟨h1, h2⟩, h3⟩, h4⟩, h5⟩ := hm
  exact ⟨m, hr, h1, h2, h3, h4, h5⟩

end Dhtsim
