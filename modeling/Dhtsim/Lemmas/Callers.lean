import Dhtsim.Lemmas.Lookups

/-!
# The callers of a lookup

What is due to the callers of `findNodes` and `findValue` is read off the calls that ran: whoever calls for a target waits until
the lookup for the target ends (`waitingFor`), and then all of them are answered, for success or for failure (`answered`). The
finder of a lookup holds the functions of those who wait (`held_of_run`), so these are the functions that run.
-/

namespace Dhtsim

open CallMachine KademliaNode

/-- The lookup that a call ends, for success or for failure. -/
def Call.ends : Call → Option (KademliaKey × Bool)
  | .findNodesFail t => some (t, false)
  | .findNodesFinish t => some (t, true)
  | .findValueFinish t _ => some (t, true)
  | _ => none

/-- A call of `findNodes` or `findValue`. -/
structure Caller where
  findValue : Bool
  target : KademliaKey
  callback : CallbackSet FindNodesFn
deriving DecidableEq

def Call.caller : Call → List Caller
  | .lookup findValue t cb => [⟨findValue, t, cb⟩]
  | _ => []

/-- Everybody who called `findNodes` or `findValue`. -/
def callers (tr : NodeTrace) : List Caller := tr.flatMap (fun e => e.1.caller)

/-- Those who called for a target since a lookup for it last ended, the first one first. -/
def waitingFor (t : KademliaKey) : NodeTrace → List Caller
  | [] => []
  | (c, _) :: tr =>
    if c.ends.map (·.1) = some t then []
    else waitingFor t tr ++ c.caller.filter (fun x => decide (x.target = t))

/-- Those whose lookup has ended, and how. -/
def answered : NodeTrace → List (Bool × Caller)
  | [] => []
  | (c, _) :: tr =>
    match c.ends with
    | none => answered tr
    | some (t, ok) => answered tr ++ (waitingFor t tr).map (fun x => (ok, x))

/-- A function of a lookup's callback set that a call runs, and whether as one for success. -/
def Call.answersLookup : Call → List (Bool × FindNodesFn)
  | .found ok fn _ => [(ok, fn)]
  | _ => []

/-- The functions that have to run when those whose lookup has ended are answered. -/
def lookupsDue (tr : NodeTrace) : List (Bool × FindNodesFn) :=
  (answered tr).flatMap (fun e => (e.2.callback.fns e.1).map (fun fn => (e.1, fn)))

/-- While the callbacks of a lookup run, no lookup for the same target is started. -/
def noSelfLookup (m : NodeConfig) (l : NodeLabel) : Bool :=
  match l, m.stack with
  | .run _, .lookup _ t _ :: rest => decide (.eraseFinder t ∉ rest)
  | _, _ => true

/-- Whoever waits for a target is held by its finder, unless its callbacks are running already. -/
def Held (t : KademliaKey) (n : KademliaNode) (stack : List Call) (tr : NodeTrace) : Prop :=
  (n.nodesBeingFound.find? t = none ∧ .eraseFinder t ∉ stack ∧ waitingFor t tr = []) ∨
    (.eraseFinder t ∈ stack ∧ waitingFor t tr = []) ∨
    ∃ nf, n.nodesBeingFound.find? t = some nf ∧ .eraseFinder t ∉ stack ∧
      ∀ ok, nf.findNodesCallback.fns ok = (waitingFor t tr).flatMap (·.callback.fns ok)

namespace CallersAux

variable {Γ : Ctx} {lossy : Prop} {config : Config} {key t : KademliaKey} {offset : Time}
  {ok : NodeConfig → NodeLabel → Prop} {ch : Choice} {c : Call} {n : KademliaNode} {p : KademliaNode × List Call}
  {rest stack : List Call} {tr : NodeTrace} {m : NodeConfig}

/-- A finder is erased by the calls that end its lookup. -/
theorem makes_eraseFinder (h : Makes Γ ch n c (.eraseFinder t)) : ∃ ok, c.ends = some (t, ok) := by
  cases h with
  | failErase => exact ⟨_, rfl⟩
  | finishErase => exact ⟨_, rfl⟩
  | valueFinishErase => exact ⟨_, rfl⟩

/-- Only a lookup that is started or joined, and one whose finder is erased, change the callbacks that a finder holds. -/
theorem exec_findNodesCallback (h : exec Γ ch c n = some p) (hl : ∀ fv cb, c ≠ .lookup fv t cb)
    (he : c ≠ .eraseFinder t) : (p.1.nodesBeingFound.find? t).map (·.findNodesCallback) =
      (n.nodesBeingFound.find? t).map (·.findNodesCallback) := by
  cases hc : c.about t with
  | false => rw [LookupAux.exec_finder h hc]
  | true =>
    unfold Call.about at hc
    split at hc
    · rename_i ok t' top m
      obtain rfl := of_decide_eq_true hc
      cases h
      simp only [execBase, sendCallback, findSuccess]
      split
      · rfl
      · rename_i nf hf
        rw [LookupAux.find?_setFinder_self, hf]
        rfl
    · rename_i ok t' top m
      obtain rfl := of_decide_eq_true hc
      cases h
      have hun : (n.unobserve top.address).nodesBeingFound = n.nodesBeingFound := rfl
      simp only [execBase, sendCallback, findFailure, hun]
      split
      · rfl
      · rename_i nf hf
        rw [LookupAux.find?_setFinder_self, hf]
        rfl
    · obtain rfl := of_decide_eq_true hc
      exact absurd rfl (hl _ _)
    · rename_i t' l
      obtain rfl := of_decide_eq_true hc
      cases h
      simp only [findNodesStep]
      split
      · rfl
      · rename_i nf hf
        have hlearn : (nf.learn l).findNodesCallback = nf.findNodesCallback := by
          obtain ⟨added, heq, -⟩ := nf.learn_spec l
          rw [heq]
        split
        · rw [LookupAux.find?_setFinder_self, hf]
          exact congrArg some hlearn
        · split
          · rw [LookupAux.find?_setFinder_self, hf]
            exact congrArg some hlearn
          · rw [LookupAux.find?_setFinder_self, hf]
            exact congrArg some hlearn
    · obtain rfl := of_decide_eq_true hc
      rw [(findNodesFail_eq h).1]
    · obtain rfl := of_decide_eq_true hc
      obtain ⟨nf, hf, h1, -⟩ := findNodesFinish_eq h
      rw [h1, LookupAux.find?_setFinder_self, hf]
      rfl
    · obtain rfl := of_decide_eq_true hc
      rw [(findValueFinish_eq h).1]
    · obtain rfl := of_decide_eq_true hc
      exact absurd rfl he
    · cases hc

/-- A finder holds the callback set that it held, one that a lookup passed, or both. -/
theorem exec_callbackSets {R : CallbackSet FindNodesFn → Prop} (hadd : ∀ a b, R a → R b → R (a.add b))
    (hn : ∀ nf, n.nodesBeingFound.find? t = some nf → R nf.findNodesCallback) (hc : ∀ fv cb, c = .lookup fv t cb → R cb)
    (he : exec Γ ch c n = some p) {nf' : NodeFinder} (hf' : p.1.nodesBeingFound.find? t = some nf') :
    c ≠ .eraseFinder t ∧ R nf'.findNodesCallback := by
  by_cases herase : c = .eraseFinder t
  · subst herase
    cases he
    rw [show ({ n with nodesBeingFound := n.nodesBeingFound.erase t } : KademliaNode).nodesBeingFound.find? t = none from
      SortedMap.find?_erase_self _ _] at hf'
    cases hf'
  refine ⟨herase, ?_⟩
  by_cases hl : ∃ fv cb, c = .lookup fv t cb
  · obtain ⟨fv, cb, rfl⟩ := hl
    simp only [exec, lookup, Option.some.injEq] at he
    split at he
    · rename_i nf hf
      subst he
      rw [LookupAux.find?_setFinder_self, Option.some.injEq] at hf'
      subst hf'
      exact hadd _ _ (hn nf hf) (hc fv cb rfl)
    · subst he
      rw [LookupAux.find?_setFinder_self, Option.some.injEq] at hf'
      subst hf'
      exact hc fv cb rfl
  · have hsame := exec_findNodesCallback he (fun fv cb h => hl ⟨fv, cb, h⟩) herase
    rw [hf'] at hsame
    obtain ⟨nf, hf, hcb⟩ := Option.map_eq_some_iff.1 hsame.symm
    rw [← show nf.findNodesCallback = nf'.findNodesCallback from hcb]
    exact hn nf hf

/-- The call that ends a lookup is the only one on the stack that stands for it, and it makes the callbacks run. -/
theorem ends_spec {ok : Bool} (h : LookupState Γ lossy t n (c :: rest) tr) (hc : c.ends = some (t, ok))
    (he : exec Γ ch c n = some p) : ∃ nf result, n.nodesBeingFound.find? t = some nf ∧ .eraseFinder t ∉ c :: rest ∧
      p.2 = complete nf t ok result := by
  have hphase : ∃ φ, (LookupAux.tracker t).ofCall c = [φ] := by
    unfold Call.ends at hc
    split at hc
    · cases hc; exact ⟨_, if_pos rfl⟩
    · cases hc; exact ⟨_, if_pos rfl⟩
    · cases hc; exact ⟨_, if_pos rfl⟩
    · cases hc
  have hb : ∀ b, c ≠ .base b := by
    rintro b rfl
    cases hc
  obtain ⟨φ, hφ⟩ := hphase
  obtain ⟨-, hpc⟩ := Tracker.pending_other (LookupAux.tracker t) rest he (fun b hb' => absurd hb' (hb b))
  rw [hφ, List.singleton_append] at hpc
  obtain ⟨nf, hf, hrest, -⟩ := LookupAux.lookupState_front h hpc
  have hnot : Call.eraseFinder t ∉ c :: rest := by
    intro hmem
    rcases List.mem_cons.1 hmem with rfl | hmem
    · cases hc
    · have hnil := List.flatMap_eq_nil_iff.1 (List.append_eq_nil_iff.1 hrest).1 _ hmem
      simp [Tracker.ofCall, LookupAux.tracker] at hnil
  unfold Call.ends at hc
  split at hc
  · cases hc
    obtain ⟨-, nf', h2, h3⟩ := findNodesFail_eq he
    cases hf.symm.trans h2
    exact ⟨nf, _, hf, hnot, h3⟩
  · cases hc
    obtain ⟨nf', h2, -, h3⟩ := findNodesFinish_eq he
    cases hf.symm.trans h2
    exact ⟨nf, _, hf, hnot, h3⟩
  · cases hc
    obtain ⟨-, nf', h2, h3⟩ := findValueFinish_eq he
    cases hf.symm.trans h2
    exact ⟨nf, _, hf, hnot, h3⟩
  · cases hc

/-- A lookup is started, or joined: who passed the callback set waits with those before. -/
theorem held_lookup {fv : Bool} {cb : CallbackSet FindNodesFn} (h : Held t n (.lookup fv t cb :: rest) tr)
    (hself : .eraseFinder t ∉ rest) (he : exec Γ ch (.lookup fv t cb) n = some p) :
    Held t p.1 (p.2 ++ rest) ((.lookup fv t cb, ch) :: tr) := by
  have hwaiting : waitingFor t ((.lookup fv t cb, ch) :: tr) = waitingFor t tr ++ [⟨fv, t, cb⟩] := by
    simp [waitingFor, Call.ends, Call.caller]
  have hnot : Call.eraseFinder t ∉ .lookup fv t cb :: rest := by simpa using hself
  have hnot' : Call.eraseFinder t ∉ p.2 ++ rest := by
    intro hmem
    rcases List.mem_append.1 hmem with hmem | hmem
    · obtain ⟨ok, hends⟩ := makes_eraseFinder (exec_makes he _ hmem)
      cases hends
    · exact hself hmem
  simp only [exec, lookup, Option.some.injEq] at he
  rcases h with ⟨hf, -, hw⟩ | ⟨hmem, -⟩ | ⟨nf, hf, -, hfns⟩
  · rw [hf] at he
    subst he
    refine Or.inr (Or.inr ⟨NodeFinder.new fv t cb, LookupAux.find?_setFinder_self _, hnot', fun ok => ?_⟩)
    rw [hwaiting, hw, List.nil_append, List.flatMap_singleton]
    rfl
  · exact absurd hmem hnot
  · rw [hf] at he
    subst he
    refine Or.inr (Or.inr ⟨_, LookupAux.find?_setFinder_self _, hnot', fun ok => ?_⟩)
    rw [hwaiting, List.flatMap_append, ← hfns, List.flatMap_singleton]
    cases ok <;> rfl

/-- A lookup ends: nobody waits for it any more. -/
theorem held_ends {ok : Bool} (hc : c.ends = some (t, ok)) (h : LookupState Γ lossy t n (c :: rest) tr)
    (he : exec Γ ch c n = some p) : Held t p.1 (p.2 ++ rest) ((c, ch) :: tr) := by
  obtain ⟨nf, result, -, -, hcs⟩ := ends_spec h hc he
  refine Or.inr (Or.inl ⟨?_, ?_⟩)
  · rw [hcs, complete]
    simp
  · simp [waitingFor, hc]

/-- The finder of a lookup that has ended is erased. -/
theorem held_eraseFinder (h : Held t n (.eraseFinder t :: rest) tr) (hstate : LookupState Γ lossy t n (.eraseFinder t :: rest) tr)
    (he : exec Γ ch (.eraseFinder t) n = some p) : Held t p.1 (p.2 ++ rest) ((.eraseFinder t, ch) :: tr) := by
  obtain ⟨-, hpc⟩ := Tracker.pending_other (LookupAux.tracker t) rest he (by simp)
  rw [show (LookupAux.tracker t).ofCall (.eraseFinder t) = [.closing] from if_pos rfl, List.singleton_append] at hpc
  obtain ⟨nf, -, hrest, -⟩ := LookupAux.lookupState_front hstate hpc
  have hw : waitingFor t tr = [] := by
    rcases h with ⟨-, -, hw⟩ | ⟨-, hw⟩ | ⟨_, -, hnot, -⟩
    · exact hw
    · exact hw
    · exact absurd List.mem_cons_self hnot
  cases he
  refine Or.inl ⟨SortedMap.find?_erase_self _ _, fun hmem => ?_, ?_⟩
  · have hnil := List.flatMap_eq_nil_iff.1 (List.append_eq_nil_iff.1 hrest).1 _ hmem
    simp [Tracker.ofCall, LookupAux.tracker] at hnil
  · simp [waitingFor, Call.ends, Call.caller, hw]

/-- A call that neither starts, joins nor ends a lookup for the target. -/
theorem held_other (h : Held t n (c :: rest) tr) (hl : ∀ fv cb, c ≠ .lookup fv t cb) (hends : ∀ ok, c.ends ≠ some (t, ok))
    (hne : c ≠ .eraseFinder t) (he : exec Γ ch c n = some p) : Held t p.1 (p.2 ++ rest) ((c, ch) :: tr) := by
  have hfns := exec_findNodesCallback he hl hne
  have hwaiting : waitingFor t ((c, ch) :: tr) = waitingFor t tr := by
    have hnot : ¬c.ends.map (·.1) = some t := by
      intro hm
      obtain ⟨⟨t', ok⟩, h1, rfl⟩ := Option.map_eq_some_iff.1 hm
      exact hends ok h1
    have hnone : c.caller.filter (fun x => decide (x.target = t)) = [] := by
      unfold Call.caller
      split
      · rename_i fv t' cb
        refine List.filter_eq_nil_iff.2 (fun x hmem => ?_)
        rw [List.mem_singleton.1 hmem]
        intro ht
        obtain rfl : t' = t := of_decide_eq_true ht
        exact hl _ _ rfl
      · rfl
    rw [waitingFor, if_neg hnot, hnone, List.append_nil]
  have hstack : Call.eraseFinder t ∈ p.2 ++ rest ↔ Call.eraseFinder t ∈ c :: rest := by
    rw [List.mem_append, List.mem_cons]
    refine or_congr_left (iff_of_false (fun hmem => ?_) (fun heq => hne heq.symm))
    obtain ⟨ok, h⟩ := makes_eraseFinder (exec_makes he _ hmem)
    exact hends ok h
  rw [Held, hwaiting, hstack]
  rcases h with ⟨hf, h1, h2⟩ | ⟨h1, h2⟩ | ⟨nf, hf, h1, h2⟩
  · rw [hf, Option.map_none, Option.map_eq_none_iff] at hfns
    exact Or.inl ⟨hfns, h1, h2⟩
  · exact Or.inr (Or.inl ⟨h1, h2⟩)
  · rw [hf, Option.map_some] at hfns
    obtain ⟨nf', hf', hcb⟩ := Option.map_eq_some_iff.1 hfns
    exact Or.inr (Or.inr ⟨nf', hf', h1, fun ok => hcb ▸ h2 ok⟩)

/-- Every step keeps those who wait held. -/
theorem held_of_run (hok : ∀ m l, ok m l → noSelfLookup m l = true)
    (h : Run (nodeProgram Γ) ok (startNode config key offset) m) (t : KademliaKey) : Held t m.state m.stack m.trace := by
  refine h.invariant (I := fun m => Held t m.state m.stack m.trace) (Or.inl ⟨rfl, List.not_mem_nil, rfl⟩) ?_
  intro m l m' hr hI ho hs
  have hstate := lookupState_of_run True (fun _ _ _ => Or.inl trivial) hr t
  have hsame : ∀ (n : KademliaNode) (c : Call) (stack : List Call) (tr : NodeTrace), c ≠ .eraseFinder t →
      (Held t n (c :: stack) tr ↔ Held t n stack tr) := by
    intro n c stack tr hc
    have hmem : Call.eraseFinder t ∈ c :: stack ↔ Call.eraseFinder t ∈ stack := by
      rw [List.mem_cons, or_iff_right (fun heq => hc heq.symm)]
    rw [Held, Held, hmem]
  have hevent : ∀ c : Call, (nodeProgram Γ).event c = true ∨ (nodeProgram Γ).reentry c = true → c ≠ .eraseFinder t := by
    rintro c hc rfl
    cases isEvent_of_enters hc
  cases hs with
  | @run ch c rest n tr n' cs hw he =>
    by_cases hl : ∃ fv cb, c = .lookup fv t cb
    · obtain ⟨fv, cb, rfl⟩ := hl
      exact held_lookup hI (of_decide_eq_true (hok _ _ ho)) he
    by_cases hends : ∃ ok, c.ends = some (t, ok)
    · obtain ⟨ok, hends⟩ := hends
      exact held_ends hends hstate he
    by_cases hne : c = .eraseFinder t
    · subst hne
      exact held_eraseFinder hI hstate he
    exact held_other hI (fun fv cb h => hl ⟨fv, cb, h⟩) (fun ok h => hends ⟨ok, h⟩) hne he
  | event hc => exact (hsame _ _ _ _ (hevent _ (Or.inl hc))).2 hI
  | reentry hf hc => exact (hsame _ _ _ _ (hevent _ (Or.inr hc))).2 hI
  | @leave f rest n tr hf =>
    refine (hsame _ _ _ _ ?_).1 hI
    rintro rfl
    cases hf

/-- Functions of lookups run when a lookup ends, and at no other time. -/
theorem makes_answersLookup {x : Call} (h : Makes Γ ch n c x) (hc : c.ends = none) : x.answersLookup = [] := by
  cases h with
  | failFound | finishFound | valueFinishFound => cases hc
  | _ => rfl

/-- When a lookup ends, the functions that run next are those of everybody who waits. -/
theorem ends_calls {success : Bool} (hok : ∀ m l, ok m l → noSelfLookup m l = true)
    (hr : Run (nodeProgram Γ) ok (startNode config key offset) ⟨n, c :: rest, tr⟩) (hc : c.ends = some (t, success))
    (he : exec Γ ch c n = some p) : ∃ nf result, n.nodesBeingFound.find? t = some nf ∧ p.2 = complete nf t success result ∧
      ∀ success, nf.findNodesCallback.fns success = (waitingFor t tr).flatMap (·.callback.fns success) := by
  have hstate := lookupState_of_run True (fun _ _ _ => Or.inl trivial) hr t
  obtain ⟨nf, result, hf, hnot, hcs⟩ := ends_spec hstate hc he
  refine ⟨nf, result, hf, hcs, ?_⟩
  rcases held_of_run hok hr t with ⟨hf', -, -⟩ | ⟨hmem, -⟩ | ⟨nf', hf', -, hfns⟩
  · cases hf.symm.trans hf'
  · exact absurd hmem hnot
  · cases hf.symm.trans hf'
    exact hfns

/-- The functions that have run, and those about to, are those that have to. -/
theorem answered_of_run (hok : ∀ m l, ok m l → noSelfLookup m l = true)
    (h : Run (nodeProgram Γ) ok (startNode config key offset) m) :
    (tally Call.answersLookup m).Perm (lookupsDue m.trace) := by
  refine h.tally_perm (List.Perm.refl _) ?_ ?_ ?_
  · intro ch c rest n tr n' cs hr ho he
    cases hends : c.ends with
    | none =>
      have hnone : cs.flatMap Call.answersLookup = [] :=
        List.flatMap_eq_nil_iff.2 (fun x hx => makes_answersLookup (exec_makes he x hx) hends)
      rw [hnone, List.nil_append, lookupsDue, lookupsDue, answered, hends]
    | some e =>
      obtain ⟨t, success⟩ := e
      obtain ⟨nf, result, -, hcs, hfns⟩ := ends_calls hok hr hends he
      have hcs : cs = complete nf t success result := hcs
      have hruns : cs.flatMap Call.answersLookup = (nf.findNodesCallback.fns success).map (fun fn => (success, fn)) := by
        rw [hcs, complete, List.flatMap_append, List.flatMap_map, List.map_eq_flatMap]
        exact List.append_nil _
      have hdue : lookupsDue ((c, ch) :: tr) = lookupsDue tr ++ cs.flatMap Call.answersLookup := by
        rw [hruns, hfns, lookupsDue, answered, hends]
        simp only [List.flatMap_append, List.flatMap_map, List.map_flatMap]
        rfl
      rw [hdue]
      exact List.perm_append_comm
  · intro c hc
    have hc := isEvent_of_enters hc
    cases c with
    | found success fn result => cases hc
    | _ => rfl
  · intro c hc
    cases c with
    | userCode => rfl
    | _ => cases hc

/-- Everybody who called for a target waits, or was answered when a lookup for the target ended. -/
theorem callers_perm (t : KademliaKey) (tr : NodeTrace) :
    ((callers tr).filter (fun x => decide (x.target = t))).Perm
      (((answered tr).map (·.2)).filter (fun x => decide (x.target = t)) ++ waitingFor t tr) := by
  -- those who wait for a target called for it
  have htarget : ∀ (t : KademliaKey) (tr : NodeTrace), ∀ x ∈ waitingFor t tr, x.target = t := by
    intro t tr x hx
    induction tr with
    | nil => cases hx
    | cons e tr ih =>
      rw [waitingFor] at hx
      split at hx
      · cases hx
      · rcases List.mem_append.1 hx with hx | hx
        · exact ih hx
        · exact of_decide_eq_true (List.mem_filter.1 hx).2
  induction tr with
  | nil => exact List.Perm.refl _
  | cons e tr ih =>
    obtain ⟨c, ch⟩ := e
    cases hends : c.ends with
    | none =>
      have hwaiting : waitingFor t ((c, ch) :: tr) =
          waitingFor t tr ++ c.caller.filter (fun x => decide (x.target = t)) := by
        rw [waitingFor, hends]
        rfl
      have hanswered : answered ((c, ch) :: tr) = answered tr := by rw [answered, hends]
      rw [hwaiting, hanswered, callers, List.flatMap_cons, List.filter_append, ← List.append_assoc]
      exact (ih.append_left _).trans List.perm_append_comm
    | some e =>
      obtain ⟨t', success⟩ := e
      have hcaller : c.caller = [] := by
        cases c with
        | lookup fv t' cb => cases hends
        | _ => rfl
      have hcallers : callers ((c, ch) :: tr) = callers tr := by
        rw [callers, List.flatMap_cons, hcaller, List.nil_append, callers]
      have hanswered : (answered ((c, ch) :: tr)).map (·.2) = (answered tr).map (·.2) ++ waitingFor t' tr := by
        rw [answered, hends, List.map_append, List.map_map]
        exact congrArg (_ ++ ·) (List.map_id' _)
      rw [hanswered, hcallers, List.filter_append]
      by_cases ht : t' = t
      · subst ht
        have hwaiting : waitingFor t' ((c, ch) :: tr) = [] := by
          rw [waitingFor, hends]
          exact if_pos rfl
        rw [hwaiting, List.append_nil, List.filter_eq_self.2 (fun x hx => decide_eq_true (htarget t' tr x hx))]
        exact ih
      · have hwaiting : waitingFor t ((c, ch) :: tr) = waitingFor t tr := by
          rw [waitingFor, hends, hcaller]
          simp [ht]
        have hnone : (waitingFor t' tr).filter (fun x => decide (x.target = t)) = [] := by
          refine List.filter_eq_nil_iff.2 (fun x hx => ?_)
          simp [htarget t' tr x hx, ht]
        rw [hwaiting, hnone, List.append_nil]
        exact ih

end CallersAux

end Dhtsim
