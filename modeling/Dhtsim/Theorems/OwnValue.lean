import Dhtsim.Lemmas.Callers
import Dhtsim.Model.Outside

/-!
# Looking up a value that the node holds

`handleMessage` answers a `FIND_VALUE` request from the node's own table; `findValue` asks the contacts only. A lookup for a value
that the node itself holds ends with it when a contact replies with it, and fails otherwise (`own_value_false`).
-/

namespace Dhtsim

open CallMachine KademliaNode

/-- Whether a reply carries a value. -/
def FindNodesMessage.carriesValue (fm : FindNodesMessage) : Bool := fm.findValue && fm.valueFound

/-- A step that does not end the lookup for the target. -/
def goesOn (t : KademliaKey) (m : NodeConfig) (l : NodeLabel) : Bool :=
  match l, m.stack with
  | .run _, c :: _ => decide (c.ends.map (·.1) ≠ some t)
  | _, _ => true

namespace OwnValueAux

variable {Γ : Ctx} {config : Config} {key t : KademliaKey} {offset : Time} {ch : Choice} {c : Call} {n : KademliaNode}
  {p : KademliaNode × List Call} {rest : List Call} {tr : NodeTrace} {m m' : NodeConfig} {v : List UInt8}

/-- The lookup for the target is about to end with a value: one reply carried a value, and it was this one. -/
def Valued (Γ : Ctx) (t : KademliaKey) (stack : List Call) (tr : NodeTrace) : Prop :=
  ∀ v, .findValueFinish t v ∈ stack → (∃ r ∈ repliedTo Γ t tr, r.2.carriesValue = true ∧ r.2.value = v) ∧
    ∀ r ∈ repliedTo Γ t tr, r.2.carriesValue = true → r.2.value = v

/-- A call that stands for the lookup of a target is the only one on the stack. -/
theorem not_mem_of_front {φ : LookupPhase} (h : LookupState Γ True t n (c :: rest) tr)
    (hc : (LookupAux.tracker t).pending n (c :: rest) = φ :: (LookupAux.tracker t).pending n rest) :
    .findValueFinish t v ∉ rest := by
  intro hmem
  obtain ⟨nf, -, hrest, -⟩ := LookupAux.lookupState_front h hc
  have hnil := List.flatMap_eq_nil_iff.1 (List.append_eq_nil_iff.1 hrest).1 _ hmem
  simp [Tracker.ofCall, LookupAux.tracker] at hnil

/-- The replies to a lookup change when one is taken, and when the finder is erased. -/
theorem repliedTo_cons (h1 : c ≠ .eraseFinder t) (h2 : ∀ top msg, c ≠ .base (.callback true (.findSuccess t top) msg)) :
    repliedTo Γ t ((c, ch) :: tr) = repliedTo Γ t tr := by
  have hreplies : c.replies Γ t ch = [] := by
    refine List.eq_nil_iff_forall_not_mem.2 (fun r hr => ?_)
    obtain ⟨top, msg, hc, -⟩ := mem_replies hr
    exact h2 top msg hc
  rw [repliedTo, sinceErase, if_neg h1, hreplies, List.append_nil, repliedTo]

/-- The step of a run that runs a call. -/
theorem valued_exec (hfrom : c.FromRequests Γ key) (hstate : LookupState Γ True t n (c :: rest) tr)
    (h : Valued Γ t (c :: rest) tr) (he : exec Γ ch c n = some p) : Valued Γ t (p.2 ++ rest) ((c, ch) :: tr) := by
  intro v hv
  by_cases hreply : ∃ top msg, c = .base (.callback true (.findSuccess t top) msg)
  · obtain ⟨top, msg, rfl⟩ := hreply
    obtain ⟨-, hpc⟩ := Tracker.pending_other (LookupAux.tracker t) rest he (by simp)
    rw [show (LookupAux.tracker t).ofCall (.base (.callback true (.findSuccess t top) msg)) = [.request top] from if_pos rfl,
      List.singleton_append] at hpc
    obtain ⟨nf, hf, -, hp⟩ := LookupAux.lookupState_front hstate hpc
    have hmade : Call.findValueFinish t v ∈ p.2 :=
      (List.mem_append.1 hv).resolve_right (not_mem_of_front hstate hpc)
    have hold : ∀ r ∈ repliedTo Γ t tr, r.2.carriesValue = false := hp.noValue (by simp) (by simp)
    have hreplied : repliedTo Γ t ((.base (.callback true (.findSuccess t top) msg), ch) :: tr) =
        repliedTo Γ t tr ++ [(top, readFindNodes Γ ch msg)] := by
      rw [repliedTo, sinceErase, if_neg (by simp)]
      exact congrArg _ (if_pos rfl)
    rw [hreplied]
    -- no reply before this one carried a value
    cases exec_makes he _ hmade with
    | valueFound hf' hvalue =>
      refine ⟨⟨_, List.mem_append_right _ (List.mem_singleton_self _), hvalue, rfl⟩, fun r hr hcarries => ?_⟩
      rcases List.mem_append.1 hr with hr | hr
      · rw [hold r hr] at hcarries
        cases hcarries
      · rw [List.mem_singleton.1 hr]
  · have hreply' : ∀ top msg, c ≠ .base (.callback true (.findSuccess t top) msg) :=
      fun top msg hc => hreply ⟨top, msg, hc⟩
    have hold : Call.findValueFinish t v ∈ rest := by
      rcases List.mem_append.1 hv with hmade | hmem
      · cases exec_makes he _ hmade with
        | valueFound hf hvalue =>
          obtain rfl := success_of_findSuccess hfrom
          exact absurd rfl (hreply' _ _)
      · exact hmem
    have herase : c ≠ .eraseFinder t := by
      rintro rfl
      obtain ⟨-, hpc⟩ := Tracker.pending_other (LookupAux.tracker t) rest he (by simp)
      rw [show (LookupAux.tracker t).ofCall (.eraseFinder t) = [.closing] from if_pos rfl, List.singleton_append] at hpc
      exact not_mem_of_front hstate hpc hold
    rw [repliedTo_cons herase hreply']
    exact h v (List.mem_cons_of_mem _ hold)

/-- In every reachable configuration a lookup that is about to end with a value got it in a reply. -/
theorem valued_of_run (h : Run (nodeProgram Γ) anyStep (startNode config key offset) m) : Valued Γ t m.stack m.trace := by
  refine h.invariant (I := fun m => Valued Γ t m.stack m.trace) (fun v hv => absurd hv List.not_mem_nil) ?_
  intro m l m' hr hI _ hs
  have henter : ∀ (c : Call) (stack : List Call) (tr : NodeTrace), c.isEvent = true → Valued Γ t stack tr →
      Valued Γ t (c :: stack) tr := by
    intro c stack tr hc hV v hv
    rcases List.mem_cons.1 hv with rfl | hv
    · cases hc
    · exact hV v hv
  cases hs with
  | run hw he =>
    have hstate := lookupState_of_run True (fun _ _ _ => Or.inl trivial) hr t
    exact valued_exec ((fromRequests_of_run hr).2 _ List.mem_cons_self) hstate hI he
  | event hc => exact henter _ _ _ hc hI
  | reentry hf hc => exact henter _ _ _ (isEvent_of_enters (Γ := Γ) (Or.inr hc)) hI
  | leave hf => exact fun v hv => hI v (List.mem_cons_of_mem _ hv)

/-- The lookup for the target was started by `findValue` with the callback set, and has not ended. -/
def Looking (t : KademliaKey) (cb : CallbackSet FindNodesFn) (n : KademliaNode) (stack : List Call) (tr : NodeTrace) : Prop :=
  .eraseFinder t ∉ stack ∧ (startedBy t tr).head? = some true ∧
    ∃ nf, n.nodesBeingFound.find? t = some nf ∧ ∀ ok, ∀ fn ∈ cb.fns ok, fn ∈ nf.findNodesCallback.fns ok

/-- A call that does not end the lookup leaves it in progress. -/
theorem looking_exec {cb : CallbackSet FindNodesFn} (h : Looking t cb n (c :: rest) tr)
    (hc : c.ends.map (·.1) ≠ some t) (he : exec Γ ch c n = some p) : Looking t cb p.1 (p.2 ++ rest) ((c, ch) :: tr) := by
  obtain ⟨hnot, hstarted, nf, hf, hfns⟩ := h
  have herase : c ≠ .eraseFinder t := fun hc => hnot (hc ▸ List.mem_cons_self)
  refine ⟨fun hmem => ?_, ?_, ?_⟩
  · rcases List.mem_append.1 hmem with hmade | hmem
    · obtain ⟨ok, hends⟩ := CallersAux.makes_eraseFinder (exec_makes he _ hmade)
      exact hc (by rw [hends]; rfl)
    · exact hnot (List.mem_cons_of_mem _ hmem)
  · rw [startedBy, sinceErase, if_neg herase, List.head?_append]
    have hstarted : (sinceErase t (fun e => e.1.starts t) tr).head? = some true := hstarted
    rw [hstarted]
    rfl
  · by_cases hl : ∃ fv cb', c = .lookup fv t cb'
    · obtain ⟨fv, cb', rfl⟩ := hl
      simp only [exec, lookup, hf, Option.some.injEq] at he
      subst he
      refine ⟨_, LookupAux.find?_setFinder_self _, fun ok fn hfn => ?_⟩
      rw [CallbackSet.fns_add]
      exact List.mem_append_left _ (hfns ok fn hfn)
    · have hsame := CallersAux.exec_findNodesCallback he (fun fv cb' hc => hl ⟨fv, cb', hc⟩) herase
      rw [hf] at hsame
      obtain ⟨nf', hf', hcb⟩ := Option.map_eq_some_iff.1 hsame
      exact ⟨nf', hf', fun ok fn hfn => hcb ▸ hfns ok fn hfn⟩

/-- What comes in, and what returns, leaves the lookup in progress. -/
theorem looking_stack {cb : CallbackSet FindNodesFn} {stack stack' : List Call} (h : Looking t cb n stack tr)
    (hsub : .eraseFinder t ∈ stack' → .eraseFinder t ∈ stack) : Looking t cb n stack' tr :=
  ⟨fun hmem => h.1 (hsub hmem), h.2⟩

/-- A lookup that `findValue` starts is in progress until a step ends it. -/
theorem looking_of_run {cb : CallbackSet FindNodesFn} (h : Run (nodeProgram Γ) anyStep (startNode config key offset) m)
    (hstack : m.stack = .lookup true t cb :: rest) (hfinder : m.state.nodesBeingFound.find? t = none)
    (h' : Run (nodeProgram Γ) (fun m l => goesOn t m l = true) m m') :
    m' = m ∨ Looking t cb m'.state m'.stack m'.trace := by
  have hstate := lookupState_of_run True (fun _ _ _ => Or.inl trivial) h t
  refine h'.invariant (I := fun m' => m' = m ∨ Looking t cb m'.state m'.stack m'.trace) (Or.inl rfl) ?_
  intro m₁ l m₂ hr hI hok hs
  right
  rcases hI with rfl | hI
  · -- the lookup is started
    obtain ⟨n, stack, tr⟩ := m₁
    simp only at hstack hfinder
    subst hstack
    obtain ⟨-, hpending, hview⟩ | ⟨nf, φ, hf, -⟩ := hstate
    · cases hs with
      | run hw he =>
        have hexec := he
        simp only [nodeProgram, exec, lookup, hfinder, Option.some.injEq, Prod.mk.injEq] at hexec
        obtain ⟨rfl, rfl⟩ := hexec
        have hstarted : startedBy t tr = [] := congrArg (·.started) hview
        refine ⟨fun hmem => ?_, ?_, NodeFinder.new true t cb, LookupAux.find?_setFinder_self _, fun ok fn hfn => hfn⟩
        · simp only [List.singleton_append, List.mem_cons, reduceCtorEq, false_or] at hmem
          have hnil := List.flatMap_eq_nil_iff.1 (List.append_eq_nil_iff.1 hpending).1 _ (List.mem_cons_of_mem _ hmem)
          simp [Tracker.ofCall, LookupAux.tracker] at hnil
        · rw [startedBy, sinceErase, if_neg (by simp)]
          rw [startedBy] at hstarted
          rw [hstarted]
          simp [Call.starts]
      | reentry hf hc => cases hf
      | leave hf => cases hf
    · rw [hfinder] at hf
      cases hf
  · cases hs with
    | run hw he =>
      simp only [goesOn, decide_eq_true_eq] at hok
      exact looking_exec hI hok he
    | event hc =>
      refine looking_stack hI (fun hmem => ?_)
      rw [← List.mem_singleton.1 hmem] at hc
      cases hc
    | reentry hf hc =>
      refine looking_stack hI (fun hmem => ?_)
      rcases List.mem_cons.1 hmem with rfl | hmem
      · cases hc
      · exact hmem
    | leave hf => exact looking_stack hI (List.mem_cons_of_mem _)

end OwnValueAux

open OwnValueAux

/-- A lookup for a value that the node holds: when the lookup that `findValue` started ends,
1. it ends in success with the value of the node's own entry if and only if a contact replied with that value before its request
   timed out;
2. the functions of its callback set run, those for success with a value that was found and with that value in the case of part
   1, those for failure without one. -/
theorem own_value {Γ : Ctx} {config : Config} {key t : KademliaKey} {offset : Time} {m m' : NodeConfig}
    {cb : CallbackSet FindNodesFn} {c : Call} {rest rest' : List Call} {ok : Bool}
    (h : Run (nodeProgram Γ) anyStep (startNode config key offset) m) (hstack : m.stack = .lookup true t cb :: rest)
    (hfinder : m.state.nodesBeingFound.find? t = none) (h' : Run (nodeProgram Γ) (fun m l => goesOn t m l = true) m m')
    (hstack' : m'.stack = c :: rest') (hends : c.ends = some (t, ok)) :
    ∀ entry, m.state.table.find? t = some entry →
      (c = .findValueFinish t entry.value ↔
        ∃ r ∈ repliedTo Γ t m'.trace, r.2.carriesValue = true ∧ r.2.value = entry.value) ∧
      ∀ ch p, exec Γ ch c m'.state = some p → ∀ fn ∈ cb.fns ok, ∃ result, .found ok fn result ∈ p.2 ∧
        result.valueFound = ok ∧ (c = .findValueFinish t entry.value → ok = true ∧ result.value = entry.value) := by
  intro entry _
  have hrun : Run (nodeProgram Γ) anyStep (startNode config key offset) m' := h.trans (run_anyStep h')
  have hstate := lookupState_of_run True (fun _ _ _ => Or.inl trivial) hrun t
  have hvalued := valued_of_run (t := t) hrun
  have hlooking : Looking t cb m'.state m'.stack m'.trace := by
    rcases looking_of_run h hstack hfinder h' with rfl | hlooking
    · rw [hstack] at hstack'
      obtain ⟨rfl, -⟩ := List.cons.inj hstack'
      cases hends
    · exact hlooking
  obtain ⟨n, stack, tr⟩ := m'
  simp only at hstack' hstate hvalued hlooking
  subst hstack'
  obtain ⟨-, hstarted, nf, hf, hfns⟩ := hlooking
  have hfront : ∀ φ, (LookupAux.tracker t).ofCall c = [φ] → (∀ b, c ≠ .base b) →
      Progress t (lookupView Γ t (c :: rest') tr) nf φ := by
    intro φ hφ hb
    have hpc : (LookupAux.tracker t).pending n (c :: rest') = φ :: (LookupAux.tracker t).pending n rest' := by
      have herases : c.erases = none := by
        cases c with
        | base b => exact absurd rfl (hb b)
        | _ => rfl
      rw [Tracker.pending_cons herases, hφ]
      rfl
    obtain ⟨nf', hf', -, hp⟩ := LookupAux.lookupState_front hstate hpc
    cases hf.symm.trans hf'
    exact hp
  unfold Call.ends at hends
  split at hends
  · -- the lookup fails
    cases hends
    have hp := hfront (.exhausted true) (if_pos rfl) (by simp)
    refine ⟨⟨fun hc => (nomatch hc), fun ⟨r, hr, hcarries, _⟩ => ?_⟩, fun ch p he fn hfn => ?_⟩
    · have hnone : r.2.carriesValue = false := hp.noValue (by simp) (by simp) r hr
      rw [hnone] at hcarries
      cases hcarries
    · obtain ⟨-, nf', hf', hcs⟩ := findNodesFail_eq he
      cases hf.symm.trans hf'
      refine ⟨failResult ch, ?_, rfl, fun hc => nomatch hc⟩
      rw [hcs]
      exact List.mem_append_left _ (List.mem_map_of_mem (hfns false fn hfn))
  · -- a lookup started by `findValue` does not end as one started by `findNodes`
    cases hends
    have hp := hfront (.exhausted false) (if_pos rfl) (by simp)
    have hfindNodes : nf.findValue = false := (hp.exhausted false rfl).2
    have hview : (startedBy t tr).head? = some nf.findValue := hp.started
    rw [hstarted, hfindNodes] at hview
    cases hview
  · rename_i v
    cases hends
    obtain ⟨⟨r, hr, hcarries, hv⟩, hall⟩ := hvalued v List.mem_cons_self
    refine ⟨⟨fun hc => ?_, fun ⟨r', hr', hcarries', hv'⟩ => ?_⟩, fun ch p he fn hfn => ?_⟩
    · cases hc
      exact ⟨r, hr, hcarries, hv⟩
    · rw [← hv', hall r' hr' hcarries']
    · obtain ⟨-, nf', hf', hcs⟩ := findValueFinish_eq he
      cases hf.symm.trans hf'
      refine ⟨valueResult v ch, ?_, rfl, fun hc => ?_⟩
      · rw [hcs]
        exact List.mem_append_left _ (List.mem_map_of_mem (hfns true fn hfn))
      · cases hc
        exact ⟨rfl, rfl⟩
  · cases hends

/-- The node is given a value by its only contact, and then looks it up: the lookup asks the contact. -/
def ownLookup : List NodeLabel × List NodeLabel :=
  ([.enter (.base (.handleMessage ⟨MessageType.store.code, 5, 0, 77, Ctx.reference.store.write ⟨true, .starting 0x80, [7]⟩⟩))] ++
      runs 1 6 ++ [.enter (.lookup true (sha1 [7]) (.of (.user 1) (.user 2)))], runs 7 3)

/-- The contact replies with the value. -/
theorem own_value_sample : ∃ m m' : NodeConfig, m.state.table.find? (sha1 [7]) = some ⟨[7], 0, 0⟩ ∧
    m'.stack.head? = some (.findValueFinish (sha1 [7]) [7]) ∧
    ∃ r ∈ repliedTo .reference (sha1 [7]) m'.trace, r.2.carriesValue = true ∧ r.2.value = [7] := by
  obtain ⟨m, hr, hm⟩ := exists_run_of_follow (nodeProgram .reference) (fun _ _ => true) (sampleNode .zero) ownLookup.1
    (fun m => decide (m.stack = [.lookup true (sha1 [7]) (.of (.user 1) (.user 2))]) &&
      decide (m.state.nodesBeingFound.find? (sha1 [7]) = none) &&
      decide (m.state.table.find? (sha1 [7]) = some ⟨[7], 0, 0⟩) &&
      (follow (nodeProgram .reference) (goesOn (sha1 [7])) m (ownLookup.2 ++
        .enter (.base (.handleMessage ⟨MessageType.findNodes.code, 5, 0, 9, Ctx.reference.findNodes.write
          ⟨.starting 0x80, false, true, sha1 [7], 0, [], true, [7]⟩⟩)) :: runs 10 3)).any (fun m' : NodeConfig =>
            decide (m'.stack.head? = some (.findValueFinish (sha1 [7]) [7])))) (by decide +kernel)
  simp only [Bool.and_eq_true, decide_eq_true_eq, Option.any_eq_true] at hm
  obtain ⟨⟨⟨hstack, hfinder⟩, hentry⟩, m', h', hhead⟩ := hm
  obtain ⟨rest, hstack'⟩ := List.head?_eq_some_iff.1 hhead
  exact ⟨m, m', hentry, hhead,
    ((own_value (run_anyStep hr) hstack hfinder (run_of_follow h') hstack' rfl) _ hentry).1.1 rfl⟩

/-- The contact does not answer: the lookup fails, although the node has the value in its table. -/
theorem own_value_false : ∃ m m' : NodeConfig,
    Run (nodeProgram .reference) (fun m l => freshTags m l = true) (sampleNode .zero) m ∧
    m.state.dead = false ∧ m.stack = [.lookup true (sha1 [7]) (.of (.user 1) (.user 2))] ∧
    m.state.nodesBeingFound.find? (sha1 [7]) = none ∧ m.state.table.find? (sha1 [7]) = some ⟨[7], 0, 0⟩ ∧
    follow (nodeProgram .reference) freshTags m (ownLookup.2 ++ .enter (.tick 2) :: runs 10 8 ++ .enter (.tick 6) :: runs 18 8 ++
      .leave :: runs 26 5) = some m' ∧
    m'.stack = [] ∧ m'.trace.flatMap (fun e => e.1.answersLookup) = [(false, .user 2)] ∧
    m'.state.table.find? (sha1 [7]) = some ⟨[7], 0, 0⟩ := by
  obtain ⟨m, hr, hm⟩ := exists_run_of_follow (nodeProgram .reference) freshTags (sampleNode .zero) ownLookup.1
    (fun m => !m.state.dead && decide (m.stack = [.lookup true (sha1 [7]) (.of (.user 1) (.user 2))]) &&
      decide (m.state.nodesBeingFound.find? (sha1 [7]) = none) &&
      decide (m.state.table.find? (sha1 [7]) = some ⟨[7], 0, 0⟩) &&
      (follow (nodeProgram .reference) freshTags m (ownLookup.2 ++ .enter (.tick 2) :: runs 10 8 ++ .enter (.tick 6) :: runs 18 8 ++
        .leave :: runs 26 5)).any (fun m' : NodeConfig => m'.stack.isEmpty &&
          decide (m'.trace.flatMap (fun e => e.1.answersLookup) = [(false, .user 2)]) &&
          decide (m'.state.table.find? (sha1 [7]) = some ⟨[7], 0, 0⟩))) (by decide +kernel)
  simp only [Bool.and_eq_true, Bool.not_eq_true', decide_eq_true_eq, Option.any_eq_true, List.isEmpty_iff] at hm
  obtain ⟨⟨⟨⟨hlive, hstack⟩, hfinder⟩, hentry⟩, m', h', ⟨hidle, hanswers⟩, hentry'⟩ := hm
  exact ⟨m, m', hr, hlive, hstack, hfinder, hentry, h', hidle, hanswers, hentry'⟩

end Dhtsim
