import Dhtsim.Lemmas.Callers
import Dhtsim.Model.Outside

/-!
# Lookups started from a completion callback

A lookup that ends runs its callbacks first and erases its finder after them. While they run the finder is still registered, so
a call of `findNodes` or `findValue` for the same target joins it (`lookup_lost`), and what it was passed is erased with it.
`ping` does it the other way round: it erases its entry and then runs the callbacks.

When the new functions are of the kind that is running, joining also inserts into the vector that `CallbackSet` iterates over;
here the loop goes on with the functions it started with.
-/

namespace Dhtsim

open CallMachine KademliaNode

/-- The functions of lookups that a call carries. -/
def Call.findFns : Call → List FindNodesFn
  | .lookup _ _ cb => cb.all
  | .found _ fn _ => [fn]
  | _ => []

/-- No call that waits and no finder has the function. -/
def Unknown (fn : FindNodesFn) (m : NodeConfig) : Prop :=
  (∀ c ∈ m.stack, fn ∉ c.findFns) ∧ ∀ t nf, m.state.nodesBeingFound.find? t = some nf → fn ∉ nf.findNodesCallback.all

/-- The step does not pass the function. -/
def notPassed (fn : FindNodesFn) (_ : NodeConfig) (l : NodeLabel) : Bool :=
  match l with
  | .enter c => decide (fn ∉ c.findFns)
  | _ => true

/-- How often a function of a lookup has run. -/
def invocations (fn : FindNodesFn) (tr : NodeTrace) : Nat :=
  (tr.flatMap (fun e => e.1.answersLookup)).countP (fun x => decide (x.2 = fn))

/-- The callbacks of the lookup for the target are running. -/
def completing (t : KademliaKey) (m : NodeConfig) (_ : NodeLabel) : Prop := .eraseFinder t ∈ m.stack

namespace LostAux

variable {Γ : Ctx} {config : Config} {key t : KademliaKey} {offset : Time} {ch : Choice} {c : Call} {n : KademliaNode}
  {p : KademliaNode × List Call} {rest above : List Call} {tr : NodeTrace} {m m' : NodeConfig} {fn : FindNodesFn}
  {caller : Caller}

/-- While the callbacks of a lookup run, no other call stands for it. -/
theorem ofCall_of_completing (h : LookupState Γ True t n (c :: rest) tr) (hmem : .eraseFinder t ∈ rest) :
    (LookupAux.tracker t).ofCall c = [] := by
  have hclosing : LookupPhase.closing ∈ rest.flatMap (LookupAux.tracker t).ofCall :=
    List.mem_flatMap.2 ⟨_, hmem, by simp [Tracker.ofCall, LookupAux.tracker]⟩
  have hlen : ((c :: rest).flatMap (LookupAux.tracker t).ofCall).length ≤ 1 := by
    have hpending : ((LookupAux.tracker t).pending n (c :: rest)).length ≤ 1 := by
      rcases h with ⟨-, h, -⟩ | ⟨nf, φ, -, h | ⟨-, h⟩, -⟩ <;> rw [h] <;> simp
    rw [Tracker.pending, List.length_append] at hpending
    omega
  rw [List.flatMap_cons, List.length_append] at hlen
  have hpos := List.length_pos_of_mem hclosing
  exact List.eq_nil_of_length_eq_zero (by omega)

/-- A lookup whose callbacks run has its finder. -/
theorem finder_of_completing (h : LookupState Γ True t n rest tr) (hmem : .eraseFinder t ∈ rest) :
    ∃ nf, n.nodesBeingFound.find? t = some nf := by
  rcases h with ⟨-, h, -⟩ | ⟨nf, φ, hf, -, -⟩
  · have hnil := List.flatMap_eq_nil_iff.1 (List.append_eq_nil_iff.1 h).1 _ hmem
    simp [Tracker.ofCall, LookupAux.tracker] at hnil
  · exact ⟨nf, hf⟩

/-- A call that ends the lookup for a target stands for it. -/
theorem ofCall_of_ends {ok : Bool} (h : c.ends = some (t, ok)) : (LookupAux.tracker t).ofCall c ≠ [] := by
  unfold Call.ends at h
  split at h
  · cases h; simp [Tracker.ofCall, LookupAux.tracker]
  · cases h; simp [Tracker.ofCall, LookupAux.tracker]
  · cases h; simp [Tracker.ofCall, LookupAux.tracker]
  · cases h

/-- Who waits for a target goes on to wait when a call runs that does not end a lookup for it. -/
theorem mem_waitingFor_cons (h : caller ∈ waitingFor t tr) (hc : c.ends.map (·.1) ≠ some t) :
    caller ∈ waitingFor t ((c, ch) :: tr) := by
  rw [waitingFor, if_neg hc]
  exact List.mem_append_left _ h

/-- The caller waits, and as soon as the callbacks have run there is no lookup to wait for. -/
def Stranded (t : KademliaKey) (caller : Caller) (m : NodeConfig) : Prop :=
  caller ∈ waitingFor t m.trace ∧ (.eraseFinder t ∈ m.stack ∨ m.state.nodesBeingFound.find? t = none)

/-- Until the finder is erased nobody who called for the target is answered. -/
theorem stranded_of_run (h : Run (nodeProgram Γ) anyStep (startNode config key offset) m) (hm : Stranded t caller m)
    (h' : Run (nodeProgram Γ) (completing t) m m') : Stranded t caller m' := by
  refine h'.invariant hm ?_
  rintro m₁ l m₂ hr ⟨hw, -⟩ hok hs
  have hstate := lookupState_of_run True (fun _ _ _ => Or.inl trivial) (h.trans (run_anyStep hr)) t
  have hok : Call.eraseFinder t ∈ m₁.stack := hok
  cases hs with
  | @run ch c rest n tr n' cs hwait he =>
    rcases List.mem_cons.1 hok with rfl | hrest
    · cases he
      exact ⟨mem_waitingFor_cons hw (by simp [Call.ends]), Or.inr (SortedMap.find?_erase_self _ _)⟩
    · refine ⟨mem_waitingFor_cons hw (fun hends => ?_), Or.inl (List.mem_append_right _ hrest)⟩
      obtain ⟨⟨t', ok⟩, hcall, rfl⟩ := Option.map_eq_some_iff.1 hends
      exact ofCall_of_ends hcall (ofCall_of_completing hstate hrest)
  | event hc => cases hok
  | reentry hf hc => exact ⟨hw, Or.inl (List.mem_cons_of_mem _ hok)⟩
  | leave hf =>
    rcases List.mem_cons.1 hok with rfl | hrest
    · cases hf
    · exact ⟨hw, Or.inl hrest⟩

/-! ## A function that only the completed lookup holds -/

/-- The function waits in no call, and no finder holds it but that of the lookup whose callbacks run; it has run as often as
before. -/
structure Doomed (t : KademliaKey) (fn : FindNodesFn) (count : Nat) (m : NodeConfig) : Prop where
  calls : ∀ c ∈ m.stack, fn ∉ c.findFns
  finders : ∀ t' nf, m.state.nodesBeingFound.find? t' = some nf → fn ∈ nf.findNodesCallback.all →
    t' = t ∧ .eraseFinder t ∈ m.stack
  invoked : invocations fn m.trace = count

/-- A call carries no function from outside but those of the finder it ends, and its own. -/
theorem makes_findFns {x : Call} (h : Makes Γ ch n c x) (hfn : fn ∈ x.findFns)
    (hout : ∃ success, fn.fromOutside success = true) : ∃ t ok nf, c.ends = some (t, ok) ∧
      n.nodesBeingFound.find? t = some nf ∧ fn ∈ nf.findNodesCallback.all := by
  obtain ⟨success, hout⟩ := hout
  cases h with
  | failFound hf hmem =>
    rw [List.mem_singleton.1 hfn]
    exact ⟨_, _, _, rfl, hf, CallbackSet.mem_all.2 (Or.inr hmem)⟩
  | finishFound hf hmem =>
    rw [List.mem_singleton.1 hfn]
    exact ⟨_, _, _, rfl, hf, CallbackSet.mem_all.2 (Or.inl hmem)⟩
  | valueFinishFound hf hmem =>
    rw [List.mem_singleton.1 hfn]
    exact ⟨_, _, _, rfl, hf, CallbackSet.mem_all.2 (Or.inl hmem)⟩
  | storeLookup => rcases List.mem_pair.1 hfn with rfl | rfl <;> cases hout
  | refreshLookup => rcases List.mem_pair.1 hfn with rfl | rfl <;> cases hout
  | _ => cases hfn

/-- A finder holds a function that it held, or that a lookup passed. -/
theorem exec_held {t' : KademliaKey} {nf' : NodeFinder} (h : exec Γ ch c n = some p)
    (hf' : p.1.nodesBeingFound.find? t' = some nf') (hfn : fn ∈ nf'.findNodesCallback.all) :
    c ≠ .eraseFinder t' ∧
      (fn ∈ c.findFns ∨ ∃ nf, n.nodesBeingFound.find? t' = some nf ∧ fn ∈ nf.findNodesCallback.all) := by
  refine (CallersAux.exec_callbackSets (R := fun cb => fn ∈ cb.all → (fn ∈ c.findFns ∨
    ∃ nf, n.nodesBeingFound.find? t' = some nf ∧ fn ∈ nf.findNodesCallback.all)) ?_ ?_ ?_ h hf').imp_right (fun hR => hR hfn)
  · intro a b ha hb hmem
    exact (CallbackSet.mem_all_add hmem).elim ha hb
  · intro nf hf hmem
    exact Or.inr ⟨nf, hf, hmem⟩
  · rintro fv cb rfl hmem
    exact Or.inl hmem

/-- A call that does not carry a function does not run it. -/
theorem invocations_cons (hc : fn ∉ c.findFns) : invocations fn ((c, ch) :: tr) = invocations fn tr := by
  have hanswers : c.answersLookup.countP (fun x => decide (x.2 = fn)) = 0 := by
    rw [List.countP_eq_zero]
    intro x hx
    cases c with
    | found ok fn' r =>
      obtain rfl := List.mem_singleton.1 hx
      simp only [Call.findFns, List.mem_singleton] at hc
      simpa using Ne.symm hc
    | _ => cases hx
  rw [invocations, List.flatMap_cons, List.countP_append, hanswers, Nat.zero_add, invocations]

/-- The step of a run that runs a call. -/
theorem doomed_exec {count : Nat} (hstate : LookupState Γ True t n (c :: rest) tr)
    (hout : ∃ success, fn.fromOutside success = true) (h : Doomed t fn count ⟨n, c :: rest, tr⟩)
    (he : exec Γ ch c n = some p) : Doomed t fn count ⟨p.1, p.2 ++ rest, (c, ch) :: tr⟩ := by
  have hc : fn ∉ c.findFns := h.calls c List.mem_cons_self
  refine ⟨fun x hx hfn => ?_, fun t' nf' hf' hfn => ?_, ?_⟩
  · rcases List.mem_append.1 hx with hx | hx
    · obtain ⟨t', ok, nf, hends, hf, hmem⟩ := makes_findFns (exec_makes he x hx) hfn hout
      obtain ⟨rfl, herase⟩ := h.finders t' nf hf hmem
      rcases List.mem_cons.1 herase with rfl | hrest
      · cases hends
      · exact ofCall_of_ends hends (ofCall_of_completing hstate hrest)
    · exact h.calls x (List.mem_cons_of_mem _ hx) hfn
  · obtain ⟨herase, hpassed | ⟨nf, hf, hmem⟩⟩ := exec_held he hf' hfn
    · exact absurd hpassed hc
    · obtain ⟨rfl, hmem⟩ := h.finders t' nf hf hmem
      exact ⟨rfl, List.mem_append_right _ (List.mem_of_ne_of_mem (Ne.symm herase) hmem)⟩
  · rw [← h.invoked]
    exact invocations_cons hc

/-- A doomed function stays so, as long as nobody passes it again. -/
theorem doomed_of_run {count : Nat} (h : Run (nodeProgram Γ) anyStep (startNode config key offset) m)
    (hout : ∃ success, fn.fromOutside success = true) (hm : Doomed t fn count m)
    (h' : Run (nodeProgram Γ) (fun m l => notPassed fn m l = true) m m') : Doomed t fn count m' := by
  refine h'.invariant hm ?_
  intro m₁ l m₂ hr hI hok hs
  have hstate := lookupState_of_run True (fun _ _ _ => Or.inl trivial) (h.trans (run_anyStep hr)) t
  cases hs with
  | run hw he => exact doomed_exec hstate hout hI he
  | event hc =>
    simp only [notPassed, decide_eq_true_eq] at hok
    refine ⟨fun x hx => List.mem_singleton.1 hx ▸ hok, fun t' nf hf hfn => ?_, hI.invoked⟩
    exact absurd (hI.finders t' nf hf hfn).2 List.not_mem_nil
  | reentry hf hc =>
    simp only [notPassed, decide_eq_true_eq] at hok
    refine ⟨fun x hx => ?_, fun t' nf hf hfn => ?_, hI.invoked⟩
    · rcases List.mem_cons.1 hx with rfl | hx
      · exact hok
      · exact hI.calls x hx
    · obtain ⟨ht, hmem⟩ := hI.finders t' nf hf hfn
      exact ⟨ht, List.mem_cons_of_mem _ hmem⟩
  | leave hf =>
    refine ⟨fun x hx => hI.calls x (List.mem_cons_of_mem _ hx), fun t' nf hf' hfn => ?_, hI.invoked⟩
    obtain ⟨ht, hmem⟩ := hI.finders t' nf hf' hfn
    refine ⟨ht, List.mem_of_ne_of_mem ?_ hmem⟩
    rintro rfl
    cases hf

/-- A lookup for a target whose callbacks run joins the one that is ending. -/
theorem join_of_completing {fv : Bool} {cb : CallbackSet FindNodesFn} {nf : NodeFinder}
    (hf : m.state.nodesBeingFound.find? t = some nf) (hs : step (nodeProgram Γ) ⟨m.state, .lookup fv t cb :: m.stack, m.trace⟩
      (.run ch) = some m') : m' = ⟨m.state.setFinder t { nf with findNodesCallback := nf.findNodesCallback.add cb }, m.stack,
        (.lookup fv t cb, ch) :: m.trace⟩ := by
  cases step_of_eq_some hs with
  | run hw he =>
    simp only [nodeProgram, exec, lookup, hf, Option.some.injEq, Prod.mk.injEq] at he
    obtain ⟨rfl, rfl⟩ := he
    rfl

end LostAux

open LostAux

/-- Lookups started from a completion callback are lost. Outside code runs while the callbacks of a lookup for `t` run, and calls
`findNodes` or `findValue` for `t` again:
1. No lookup is started: the callback set joins the finder of the lookup that is ending.
2. Until that finder is erased no lookup for `t` ends, so the caller is not answered; and when it is erased the caller still
   waits, and there is no lookup for `t`.
3. A function of the callback set that is known nowhere else, and is not passed again, never runs, and after the erase no finder
   ever holds it. -/
theorem lookup_lost {Γ : Ctx} {config : Config} {key t : KademliaKey} {offset : Time} {m : NodeConfig} {above : List Call}
    (h : Run (nodeProgram Γ) anyStep (startNode config key offset) m) (hcode : m.stack = .userCode :: above)
    (hcompleting : .eraseFinder t ∈ m.stack) (fv : Bool) (cb : CallbackSet FindNodesFn) (ch : Choice) {m₀ m₁ : NodeConfig}
    (henter : step (nodeProgram Γ) m (.enter (.lookup fv t cb)) = some m₀)
    (hrun : step (nodeProgram Γ) m₀ (.run ch) = some m₁) :
    (∃ nf, m.state.nodesBeingFound.find? t = some nf ∧ m₁ = ⟨m.state.setFinder t
      { nf with findNodesCallback := nf.findNodesCallback.add cb }, m.stack, (.lookup fv t cb, ch) :: m.trace⟩) ∧
    (∀ m₂, Run (nodeProgram Γ) (completing t) m₁ m₂ → .eraseFinder t ∉ m₂.stack →
      ⟨fv, t, cb⟩ ∈ waitingFor t m₂.trace ∧ m₂.state.nodesBeingFound.find? t = none) ∧
    (∀ fn ∈ cb.all, Unknown fn m → ∀ m₂, Run (nodeProgram Γ) (fun m l => notPassed fn m l = true) m₁ m₂ →
      invocations fn m₂.trace = invocations fn m.trace ∧
        (.eraseFinder t ∉ m₂.stack → ∀ t' nf, m₂.state.nodesBeingFound.find? t' = some nf → fn ∉ nf.findNodesCallback.all)) := by
  have hstate := lookupState_of_run True (fun _ _ _ => Or.inl trivial) h t
  obtain ⟨nf, hf⟩ := finder_of_completing hstate hcompleting
  have hpublic : (Call.lookup fv t cb).isPublic = true ∧ m₀ = ⟨m.state, .lookup fv t cb :: m.stack, m.trace⟩ := by
    obtain ⟨n, stack, tr⟩ := m
    simp only at hcode
    subst hcode
    cases step_of_eq_some henter with
    | reentry hf' hc => exact ⟨hc, rfl⟩
  obtain ⟨hpublic, rfl⟩ := hpublic
  have hjoin := join_of_completing hf hrun
  have hm₁ : Run (nodeProgram Γ) anyStep (startNode config key offset) m₁ :=
    (h.step (l := .enter (.lookup fv t cb)) trivial henter).step (l := .run ch) trivial hrun
  refine ⟨⟨nf, hf, hjoin⟩, fun m₂ h₂ hend => ?_, fun fn hfn hunknown m₂ h₂ => ?_⟩
  · have hwaits : Stranded t ⟨fv, t, cb⟩ m₁ := by
      rw [hjoin]
      refine ⟨?_, Or.inl hcompleting⟩
      simp [waitingFor, Call.ends, Call.caller]
    obtain ⟨hw, herase⟩ := stranded_of_run hm₁ hwaits h₂
    exact ⟨hw, herase.resolve_left hend⟩
  · have hout : ∃ success, fn.fromOutside success = true := by
      simp only [Call.isPublic, Bool.and_eq_true, List.all_eq_true] at hpublic
      rcases CallbackSet.mem_all.1 hfn with hfn | hfn
      · exact ⟨true, hpublic.1 fn hfn⟩
      · exact ⟨false, hpublic.2 fn hfn⟩
    have hcount : invocations fn m₁.trace = invocations fn m.trace := by
      rw [hjoin]
      rfl
    have hdoomed : Doomed t fn (invocations fn m.trace) m₁ := by
      rw [hjoin]
      refine ⟨hunknown.1, fun t' nf' hf' hfn' => ?_, rfl⟩
      by_cases ht : t' = t
      · exact ⟨ht, hcompleting⟩
      · rw [show (KademliaNode.setFinder m.state t { nf with findNodesCallback := nf.findNodesCallback.add cb }).nodesBeingFound.find? t' =
          m.state.nodesBeingFound.find? t' from LookupAux.find?_setFinder_of_ne _ (Ne.symm ht)] at hf'
        exact absurd hfn' (hunknown.2 t' nf' hf')
    have hend := doomed_of_run hm₁ hout hdoomed h₂
    exact ⟨hend.invoked, fun herase t' nf' hf' hfn' => herase (hend.finders t' nf' hf' hfn').2⟩

/-- A node without contacts looks up a value, and the function for failure runs. -/
def failingLookup : List NodeLabel := [.enter (.lookup true (.starting 3) (.of (.user 1) (.user 2)))] ++ runs 1 4

/-- It tries again, with a function for success. -/
def tryAgain : Call := .lookup true (.starting 3) ⟨[.user 3], []⟩

/-- The callback set of the second try joins the lookup that failed. -/
theorem lookup_lost_sample : ∃ m₁ : NodeConfig, ∀ m₂, Run (nodeProgram .reference) (completing (.starting 3)) m₁ m₂ →
    .eraseFinder (.starting 3) ∉ m₂.stack → ⟨true, .starting 3, ⟨[.user 3], []⟩⟩ ∈ waitingFor (.starting 3) m₂.trace ∧
      m₂.state.nodesBeingFound.find? (.starting 3) = none := by
  obtain ⟨m, hr, hm⟩ := exists_run_of_follow (nodeProgram .reference) (fun _ _ => true) (sampleNode .zero) failingLookup
    (fun m => decide (m.stack = [.userCode, .eraseFinder (.starting 3)])) (by decide +kernel)
  have hstack : m.stack = [.userCode, .eraseFinder (.starting 3)] := by simpa using hm
  have hcompleting : Call.eraseFinder (.starting 3) ∈ m.stack := by rw [hstack]; simp
  obtain ⟨nf, hf⟩ := finder_of_completing
    (lookupState_of_run True (fun _ _ _ => Or.inl trivial) (run_anyStep hr) (.starting 3)) hcompleting
  have henter : step (nodeProgram .reference) m (.enter tryAgain) = some ⟨m.state, tryAgain :: m.stack, m.trace⟩ := by
    rw [step, hstack]
    rfl
  have hrun : ∃ m₁, step (nodeProgram .reference) ⟨m.state, tryAgain :: m.stack, m.trace⟩ (.run ⟨5, 0, false, 0⟩) = some m₁ :=
    ⟨_, rfl⟩
  obtain ⟨m₁, hrun⟩ := hrun
  exact ⟨m₁, (lookup_lost (run_anyStep hr) hstack hcompleting _ _ _ henter hrun).2.1⟩

/-- The second try is over before it began: when everything has returned, only the function for failure of the first one has run,
and there is no lookup. -/
theorem lookup_lost_false : ∃ m : NodeConfig,
    Run (nodeProgram .reference) (fun m l => freshTags m l = true) (sampleNode .zero) m ∧
    m.state.dead = false ∧ m.stack = [] ∧ (tryAgain, ⟨5, 0, false, 0⟩) ∈ m.trace ∧
    m.trace.flatMap (fun e => e.1.answersLookup) = [(false, .user 2)] ∧
    m.state.nodesBeingFound.entries = [] := by
  obtain ⟨m, hr, hm⟩ := exists_run_of_follow (nodeProgram .reference) freshTags
    (sampleNode .zero) (failingLookup ++ .enter tryAgain :: runs 5 1 ++ .leave :: runs 6 1)
    (fun m => !m.state.dead && m.stack.isEmpty && decide ((tryAgain, ⟨5, 0, false, 0⟩) ∈ m.trace) &&
      decide (m.trace.flatMap (fun e => e.1.answersLookup) = [(false, .user 2)]) &&
      decide (m.state.nodesBeingFound.entries = [])) (by decide +kernel)
  simp only [Bool.and_eq_true, Bool.not_eq_true', List.isEmpty_iff, decide_eq_true_eq] at hm
  exact ⟨m, hr, hm.1.1.1.1, hm.1.1.1.2, hm.1.1.2, hm.1.2, hm.2⟩

end Dhtsim
