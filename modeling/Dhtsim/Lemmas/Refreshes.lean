import Dhtsim.Lemmas.Callers
import Dhtsim.Model.Transcript

/-!
# What a refresh waits for

`cb_fn` of `refreshBuckets` is on its way from the lookup that it is passed to, over the finder of the lookup, to the call that
runs it. `owed` collects the functions on their way: a call hands them on, and only a lookup that joins one whose callbacks are
running loses some (`owed_exec`).
-/

namespace Dhtsim

open CallMachine KademliaNode

/-- The functions of `refreshBuckets` that a function of a lookup runs. -/
def FindNodesFn.refreshFns : FindNodesFn → List RefreshFn
  | .refresh cb => cb.successFns
  | _ => []

/-- The functions of `refreshBuckets` that run when a lookup succeeds. -/
def CallbackSet.refreshFns (cb : CallbackSet FindNodesFn) : List RefreshFn := cb.successFns.flatMap FindNodesFn.refreshFns

/-- The same functions of `refreshBuckets` run when the lookup fails. -/
def CallbackSet.Even (cb : CallbackSet FindNodesFn) : Prop := cb.failureFns.flatMap FindNodesFn.refreshFns = cb.refreshFns

/-- The functions of `refreshBuckets` that a call has passed on to a lookup. -/
def Call.refreshFns : Call → List RefreshFn
  | .lookup _ _ cb => cb.refreshFns
  | .found _ fn _ => fn.refreshFns
  | .refreshed fn => [fn]
  | _ => []

/-- The functions of `refreshBuckets` for which a call starts a lookup. -/
def Call.startsFor : Call → List RefreshFn
  | .refreshSingleBucket _ cb => cb.successFns
  | _ => []

/-- The function of `refreshBuckets` that a call runs. -/
def Call.runsRefresh : Call → List RefreshFn
  | .refreshed fn => [fn]
  | _ => []

/-- The functions that the loop of `refreshBuckets` has still to make. -/
def Call.makesRefresh : Call → List RefreshFn
  | .refreshLoop _ cb waiting => [⟨cb, waiting⟩]
  | _ => []

/-- The target whose finder a call erases. -/
def Call.erasesFinder : Call → Option KademliaKey
  | .eraseFinder t => some t
  | _ => none

/-- The functions of `refreshBuckets` that were passed to a lookup and have not run. The finder of a lookup whose callbacks are
running has handed them on. -/
def owed (n : KademliaNode) (stack : List Call) : List RefreshFn :=
  stack.flatMap Call.refreshFns ++
    n.nodesBeingFound.collect (fun e => e.2.findNodesCallback.refreshFns) (stack.filterMap Call.erasesFinder)

namespace RefreshAux

variable {Γ : Ctx} {config : Config} {key t : KademliaKey} {offset : Time} {ch : Choice} {c : Call} {n n' : KademliaNode}
  {p : KademliaNode × List Call} {rest stack : List Call} {tr : NodeTrace} {m : NodeConfig} {Q : RefreshFn → Prop}

@[simp] theorem refreshFns_add (a b : CallbackSet FindNodesFn) : (a.add b).refreshFns = a.refreshFns ++ b.refreshFns :=
  List.flatMap_append

/-- If two sets treat both outcomes alike, so does their sum. -/
theorem even_add {a b : CallbackSet FindNodesFn} (ha : a.Even) (hb : b.Even) : (a.add b).Even := by
  unfold CallbackSet.Even at *
  rw [refreshFns_add, ← ha, ← hb]
  exact List.flatMap_append

/-- What runs is the same for both outcomes. -/
theorem flatMap_fns {cb : CallbackSet FindNodesFn} (h : cb.Even) (ok : Bool) :
    (cb.fns ok).flatMap FindNodesFn.refreshFns = cb.refreshFns := by
  cases ok with
  | true => rfl
  | false => exact h

/-- The functions of a refresh that one outcome has are those of the set. -/
theorem mem_refreshFns {cb : CallbackSet FindNodesFn} (h : cb.Even) (ok : Bool) {f : FindNodesFn} (hf : f ∈ cb.fns ok)
    {fn : RefreshFn} (hfn : fn ∈ f.refreshFns) : fn ∈ cb.refreshFns := by
  rw [← flatMap_fns h ok]
  exact List.mem_flatMap.2 ⟨f, hf, hfn⟩

/-- What comes in passes no function of `refreshBuckets`. -/
theorem eq_nil_of_isPublic (hc : c.isPublic = true) : c.refreshFns = [] ∧ c.startsFor = [] ∧ c.makesRefresh = [] ∧
    ∀ fv t cb, c = .lookup fv t cb → cb.Even := by
  cases c with
  | lookup fv t cb =>
    simp only [Call.isPublic, Bool.and_eq_true, List.all_eq_true] at hc
    have hnil : ∀ (success : Bool) (fns : List FindNodesFn), (∀ f ∈ fns, f.fromOutside success = true) →
        fns.flatMap FindNodesFn.refreshFns = [] := by
      intro success fns h
      refine List.flatMap_eq_nil_iff.2 (fun f hf => ?_)
      have hout := h f hf
      cases f with
      | refresh cb => cases hout
      | _ => rfl
    refine ⟨hnil true _ hc.1, rfl, rfl, ?_⟩
    rintro fv' t' cb' h
    cases h
    exact (hnil false _ hc.2).trans (hnil true _ hc.1).symm
  | ping | store | storeAt | observe =>
    refine ⟨rfl, rfl, rfl, ?_⟩
    rintro fv t cb h
    cases h
  | _ => cases hc

/-- What comes in from outside knows of no refresh. -/
theorem eq_nil_of_isEvent (hc : c.isEvent = true) : c.refreshFns = [] ∧ c.startsFor = [] ∧ c.makesRefresh = [] ∧
    ∀ fv t cb, c = .lookup fv t cb → cb.Even := by
  cases c with
  | base b =>
    refine ⟨rfl, rfl, rfl, ?_⟩
    rintro fv t cb h
    cases h
  | tick time =>
    refine ⟨rfl, rfl, rfl, ?_⟩
    rintro fv t cb h
    cases h
  | _ => exact eq_nil_of_isPublic hc

/-! ## Which functions there are -/

/-- What was passed to lookups runs the same functions of `refreshBuckets` for both outcomes, and they all satisfy `Q`. -/
structure Refreshing (Q : RefreshFn → Prop) (n : KademliaNode) (stack : List Call) : Prop where
  finders : ∀ t nf, n.nodesBeingFound.find? t = some nf →
    nf.findNodesCallback.Even ∧ ∀ fn ∈ nf.findNodesCallback.refreshFns, Q fn
  lookups : ∀ fv t cb, .lookup fv t cb ∈ stack → cb.Even
  calls : ∀ c ∈ stack, ∀ fn ∈ c.refreshFns ++ c.startsFor ++ c.makesRefresh, Q fn

theorem Refreshing.mono {Q' : RefreshFn → Prop} (h : Refreshing Q n stack) (hQ : ∀ fn, Q fn → Q' fn) :
    Refreshing Q' n stack :=
  ⟨fun t nf hf => ⟨(h.finders t nf hf).1, fun fn hfn => hQ fn ((h.finders t nf hf).2 fn hfn)⟩, h.lookups,
    fun c hc fn hfn => hQ fn (h.calls c hc fn hfn)⟩

/-- An event begins with no function of a refresh. -/
theorem Refreshing.enter (hc : c.isEvent = true) (h : Refreshing Q n stack) : Refreshing Q n (c :: stack) := by
  obtain ⟨h1, h2, h3, heven⟩ := eq_nil_of_isEvent hc
  refine ⟨h.finders, fun fv t cb hmem => ?_, fun x hx fn hfn => ?_⟩
  · rcases List.mem_cons.1 hmem with heq | hmem
    · exact heven fv t cb heq.symm
    · exact h.lookups fv t cb hmem
  · rcases List.mem_cons.1 hx with rfl | hx
    · rw [h1, h2, h3] at hfn
      cases hfn
    · exact h.calls x hx fn hfn

/-- What waits below a call is in order. -/
theorem Refreshing.tail (h : Refreshing Q n (c :: rest)) : Refreshing Q n rest :=
  ⟨h.finders, fun fv t cb hmem => h.lookups fv t cb (List.mem_cons_of_mem _ hmem),
    fun x hx => h.calls x (List.mem_cons_of_mem _ hx)⟩

/-- A call passes on what it was given, or what the finder held whose lookup it ends. -/
theorem makes_refreshFns {x : Call} (h : Makes Γ ch n c x) (hn : Refreshing Q n (c :: rest))
    (hnew : ∀ cb, c = .refreshBuckets cb → Q ⟨cb, n.refreshWaiting.length⟩) :
    (∀ fv t cb, x = .lookup fv t cb → cb.Even) ∧ ∀ fn ∈ x.refreshFns ++ x.startsFor ++ x.makesRefresh, Q fn := by
  have hown := hn.calls c List.mem_cons_self
  -- a function that the finder held
  have hheld : ∀ {cb : CallbackSet FindNodesFn} {f : FindNodesFn} {r : FindNodesMessage}, cb.Even →
      (∀ fn ∈ cb.refreshFns, Q fn) → ∀ ok, f ∈ cb.fns ok → (∀ fv t cb, Call.found ok f r = .lookup fv t cb → cb.Even) ∧
        ∀ fn ∈ (Call.found ok f r).refreshFns ++ (Call.found ok f r).startsFor ++ (Call.found ok f r).makesRefresh, Q fn := by
    intro cb f r heven hQ ok hmem
    refine ⟨fun fv t cb h => (by cases h), fun fn hfn => hQ fn (mem_refreshFns heven ok hmem ?_)⟩
    simpa [Call.refreshFns, Call.startsFor, Call.makesRefresh] using hfn
  cases h with
  | failFound hf hmem =>
    obtain ⟨heven, hQ⟩ := hn.finders _ _ hf
    exact hheld heven hQ false hmem
  | finishFound hf hmem | valueFinishFound hf hmem =>
    obtain ⟨heven, hQ⟩ := hn.finders _ _ hf
    exact hheld heven hQ true hmem
  | storeLookup =>
    refine ⟨?_, fun fn hfn => by cases hfn⟩
    rintro fv t cb h
    cases h
    rfl
  | @refreshLookup i cb =>
    refine ⟨?_, fun fn hfn => hown fn ?_⟩
    · rintro fv t cb h
      cases h
      rfl
    · simpa [Call.refreshFns, Call.startsFor, Call.makesRefresh, CallbackSet.refreshFns, CallbackSet.of,
        FindNodesFn.refreshFns] using hfn
  | foundRefresh hmem =>
    refine ⟨fun fv t cb h => (by cases h), fun fn hfn => hown fn ?_⟩
    simp only [Call.refreshFns, Call.startsFor, Call.makesRefresh, List.append_nil, List.mem_singleton] at hfn
    subst hfn
    simpa [Call.refreshFns, Call.startsFor, Call.makesRefresh, FindNodesFn.refreshFns] using hmem
  | refreshStale hi =>
    refine ⟨fun fv t cb h => (by cases h), fun fn hfn => hown fn ?_⟩
    simpa [Call.refreshFns, Call.startsFor, Call.makesRefresh, CallbackSet.of] using hfn
  | refreshNext =>
    refine ⟨fun fv t cb h => (by cases h), fun fn hfn => hown fn ?_⟩
    simpa [Call.refreshFns, Call.startsFor, Call.makesRefresh] using hfn
  | refreshStart =>
    refine ⟨fun fv t cb h => (by cases h), fun fn hfn => ?_⟩
    simp only [Call.refreshFns, Call.startsFor, Call.makesRefresh, List.nil_append, List.mem_singleton] at hfn
    subst hfn
    exact hnew _ rfl
  | _ => exact ⟨fun fv t cb h => (by cases h), fun fn hfn => (by cases hfn)⟩

/-- A call that runs keeps this, if the functions of a new refresh are as they should be. -/
theorem Refreshing.exec (h : Refreshing Q n (c :: rest)) (he : KademliaNode.exec Γ ch c n = some p)
    (hnew : ∀ cb, c = .refreshBuckets cb → Q ⟨cb, n.refreshWaiting.length⟩) : Refreshing Q p.1 (p.2 ++ rest) := by
  have hmakes := fun x hx => makes_refreshFns (exec_makes he x hx) h hnew
  refine ⟨fun t nf hf => ?_, fun fv t cb hmem => ?_, fun x hx => ?_⟩
  · refine (CallersAux.exec_callbackSets (R := fun cb => cb.Even ∧ ∀ fn ∈ cb.refreshFns, Q fn) (fun a b ha hb => ?_)
      (h.finders t) ?_ he hf).2
    · refine ⟨even_add ha.1 hb.1, fun fn hfn => ?_⟩
      rw [refreshFns_add] at hfn
      exact (List.mem_append.1 hfn).elim (ha.2 fn) (hb.2 fn)
    · rintro fv cb rfl
      refine ⟨h.lookups fv t cb List.mem_cons_self, fun fn hfn => h.calls _ List.mem_cons_self fn ?_⟩
      exact List.mem_append_left _ (List.mem_append_left _ hfn)
  · rcases List.mem_append.1 hmem with hmem | hmem
    · exact (hmakes _ hmem).1 fv t cb rfl
    · exact h.lookups fv t cb (List.mem_cons_of_mem _ hmem)
  · rcases List.mem_append.1 hx with hx | hx
    · exact (hmakes x hx).2
    · exact h.calls x (List.mem_cons_of_mem _ hx)

/-! ## Where they are -/

/-- What the calls that are made add to the functions that are owed. -/
theorem owed_append (n : KademliaNode) (rest : List Call) {cs : List Call} (h : ∀ x ∈ cs, x.erasesFinder = none) :
    owed n (cs ++ rest) = cs.flatMap Call.refreshFns ++ owed n rest := by
  rw [owed, owed, List.flatMap_append, List.filterMap_append, List.filterMap_eq_nil_iff.2 h, List.nil_append, List.append_assoc]

/-- A call that ends no lookup owes what it carries. -/
theorem owed_cons (h : c.erasesFinder = none) : owed n (c :: rest) = c.refreshFns ++ owed n rest := by
  have hcons : owed n ([c] ++ rest) = [c].flatMap Call.refreshFns ++ owed n rest := by
    refine owed_append n rest (fun x hx => ?_)
    rwa [List.mem_singleton.1 hx]
  simpa using hcons

/-- Finders that hold the same callback sets owe the same. -/
theorem owed_congr (stack : List Call) (h : ∀ t, (n'.nodesBeingFound.find? t).map (·.findNodesCallback) =
    (n.nodesBeingFound.find? t).map (·.findNodesCallback)) : (owed n' stack).Perm (owed n stack) :=
  (SortedMap.collect_congr _ (fun _ cb => cb.refreshFns) h).append_left _

/-- Only the end of a lookup makes a call that erases a finder. -/
theorem erasesFinder_of_makes {x : Call} (h : Makes Γ ch n c x) (hc : c.ends = none) : x.erasesFinder = none := by
  cases x with
  | eraseFinder t =>
    obtain ⟨ok, hends⟩ := CallersAux.makes_eraseFinder h
    rw [hends] at hc
    cases hc
  | _ => rfl

/-- Only a lookup that ends, a function of a lookup, and the start of a lookup for a bucket hand functions of `refreshBuckets`
on to the calls they make. -/
theorem refreshFns_of_makes {x : Call} (h : Makes Γ ch n c x) (hends : c.ends = none)
    (hfound : ∀ ok fn r, c ≠ .found ok fn r) (hstart : ∀ i cb, c ≠ .refreshSingleBucket i cb) : x.refreshFns = [] := by
  cases h with
  | failFound | finishFound | valueFinishFound => cases hends
  | foundStore | foundRefresh | foundFetch | foundFetchFail | foundUser => exact absurd rfl (hfound _ _ _)
  | refreshLookup => exact absurd rfl (hstart _ _)
  | _ => rfl

/-- A call that does not end a lookup, and is none, hands on what it was given, but for the function that it runs. -/
theorem handsOn (he : exec Γ ch c n = some p) (hends : c.ends = none) (hl : ∀ fv t cb, c ≠ .lookup fv t cb) :
    p.2.flatMap Call.refreshFns ++ c.runsRefresh = c.refreshFns ++ c.startsFor := by
  by_cases hfound : ∃ ok fn r, c = .found ok fn r
  · obtain ⟨ok, fn, r, rfl⟩ := hfound
    cases he
    simp only [Call.runsRefresh, Call.startsFor, List.append_nil]
    cases fn with
    | refresh cb =>
      show (cb.successFns.map Call.refreshed).flatMap Call.refreshFns = cb.successFns
      rw [List.flatMap_map]
      exact List.flatMap_singleton' _
    | storeAt value => exact List.flatMap_eq_nil_iff.2 (by simp [found, Call.refreshFns])
    | fetchSuccess cb =>
      refine List.flatMap_eq_nil_iff.2 (fun x hx => ?_)
      rw [found] at hx
      split at hx
      · obtain ⟨f, -, rfl⟩ := List.mem_map.1 hx
        rfl
      · cases hx
    | fetchFailure cb => exact List.flatMap_eq_nil_iff.2 (by simp [found, Call.refreshFns])
    | drop | user => rfl
  by_cases hstart : ∃ i cb, c = .refreshSingleBucket i cb
  · obtain ⟨i, cb, rfl⟩ := hstart
    cases he
    simp [Call.refreshFns, Call.startsFor, Call.runsRefresh, CallbackSet.refreshFns, CallbackSet.of, FindNodesFn.refreshFns]
  have hnone : p.2.flatMap Call.refreshFns = [] := List.flatMap_eq_nil_iff.2 (fun x hx =>
    refreshFns_of_makes (exec_makes he x hx) hends (fun ok fn r h => hfound ⟨ok, fn, r, h⟩) (fun i cb h => hstart ⟨i, cb, h⟩))
  rw [hnone]
  cases c with
  | lookup fv t cb => exact absurd rfl (hl fv t cb)
  | found ok fn r => exact absurd ⟨_, _, _, rfl⟩ hfound
  | refreshSingleBucket i cb => exact absurd ⟨_, _, rfl⟩ hstart
  | _ => rfl

/-- The finders that are about to be erased. -/
theorem mem_erasing : t ∈ stack.filterMap Call.erasesFinder ↔ .eraseFinder t ∈ stack := by
  rw [List.mem_filterMap]
  constructor
  · rintro ⟨x, hx, herase⟩
    cases x with
    | eraseFinder t' =>
      cases herase
      exact hx
    | _ => cases herase
  · exact fun h => ⟨_, h, rfl⟩

/-- The calls that complete a lookup run what its finder holds. -/
theorem owed_complete {nf : NodeFinder} {ok : Bool} {r : FindNodesMessage} (hf : n.nodesBeingFound.find? t = some nf)
    (heven : nf.findNodesCallback.Even) (hrest : .eraseFinder t ∉ rest) :
    (owed n (complete nf t ok r ++ rest)).Perm (owed n rest) := by
  have hout : t ∉ rest.filterMap Call.erasesFinder := fun h => hrest (mem_erasing.1 h)
  have hfounds : ((nf.findNodesCallback.fns ok).map (fun fn => Call.found ok fn r)).flatMap Call.refreshFns =
      nf.findNodesCallback.refreshFns := by
    rw [List.flatMap_map]
    exact flatMap_fns heven ok
  have hcollect := SortedMap.collect_of_find? (fun e => e.2.findNodesCallback.refreshFns) (rest.filterMap Call.erasesFinder) hf
  rw [if_neg hout, SortedMap.collect_erase] at hcollect
  rw [complete, List.append_assoc, owed_append n _ (by simp [Call.erasesFinder]), hfounds]
  refine List.perm_iff_count.2 (fun fn => ?_)
  have hcount := hcollect.count_eq fn
  simp only [owed, List.flatMap_cons, List.filterMap_cons, Call.refreshFns, Call.erasesFinder, List.count_append,
    List.singleton_append, List.nil_append] at hcount ⊢
  omega

/-- A lookup is started, or joined. When the callbacks of the one that it joins are running, what it was passed is lost. -/
theorem owed_lookup {fv : Bool} {cb : CallbackSet FindNodesFn} (rest : List Call)
    (he : exec Γ ch (.lookup fv t cb) n = some p) :
    ∃ lost, (owed p.1 (p.2 ++ rest) ++ lost).Perm (owed n (.lookup fv t cb :: rest)) ∧
      (lost = [] ∨ lost = cb.refreshFns ∧ .eraseFinder t ∈ rest) := by
  let fns : KademliaKey × NodeFinder → List RefreshFn := fun e => e.2.findNodesCallback.refreshFns
  let out := rest.filterMap Call.erasesFinder
  let others := (n.nodesBeingFound.erase t).collect fns out
  -- the new finder, next to those of other targets
  have hnew : ∀ nf, (owed (n.setFinder t nf) rest).Perm
      (rest.flatMap Call.refreshFns ++ ((if t ∈ out then [] else fns (t, nf)) ++ others)) :=
    fun nf => (SortedMap.collect_insert fns out _ t nf).append_left _
  have hcall : owed n (.lookup fv t cb :: rest) =
      cb.refreshFns ++ (rest.flatMap Call.refreshFns ++ n.nodesBeingFound.collect fns out) := owed_cons rfl
  refine ⟨if t ∈ out then cb.refreshFns else [], List.perm_iff_count.2 (fun fn => ?_), ?_⟩
  · rw [hcall]
    simp only [exec, lookup, Option.some.injEq] at he
    split at he
    · rename_i nf hf
      subst he
      have h1 := (hnew { nf with findNodesCallback := nf.findNodesCallback.add cb }).count_eq fn
      have h2 := (SortedMap.collect_of_find? fns out hf).count_eq fn
      by_cases hout : t ∈ out
      · simp only [if_pos hout, List.count_append, List.nil_append, others] at h1 h2 ⊢
        omega
      · simp only [if_neg hout, fns, refreshFns_add, List.count_append, List.nil_append, List.append_nil, others] at h1 h2 ⊢
        omega
    · rename_i hf
      subst he
      have h1 := (hnew (NodeFinder.new fv t cb)).count_eq fn
      have h2 : others = n.nodesBeingFound.collect fns out := SortedMap.collect_of_find?_eq_none fns out hf
      rw [owed_append _ rest (by simp [Call.erasesFinder])]
      by_cases hout : t ∈ out
      · simp only [if_pos hout, h2, List.count_append, List.nil_append] at h1 ⊢
        simp only [List.flatMap_singleton, Call.refreshFns, List.count_nil]
        omega
      · simp only [if_neg hout, h2, List.count_append, List.append_nil] at h1 ⊢
        simp only [List.flatMap_singleton, Call.refreshFns, List.count_nil, fns, NodeFinder.new] at h1 ⊢
        omega
  · by_cases hout : t ∈ out
    · exact Or.inr ⟨if_pos hout, mem_erasing.1 hout⟩
    · exact Or.inl (if_neg hout)

/-- A call hands on the functions of `refreshBuckets` that it was given, but for the one that it runs. They are lost when they
are passed to a lookup whose callbacks are running. -/
theorem owed_exec (hstate : ∀ t, LookupState Γ True t n (c :: rest) tr) (hn : Refreshing Q n (c :: rest))
    (he : exec Γ ch c n = some p) : ∃ lost,
      (owed p.1 (p.2 ++ rest) ++ c.runsRefresh ++ lost).Perm (owed n (c :: rest) ++ c.startsFor) ∧
      (lost = [] ∨ ∃ fv t cb, c = .lookup fv t cb ∧ lost = cb.refreshFns ∧ .eraseFinder t ∈ rest) := by
  by_cases hl : ∃ fv t cb, c = .lookup fv t cb
  · obtain ⟨fv, t, cb, rfl⟩ := hl
    obtain ⟨lost, hperm, hlost⟩ := owed_lookup rest he
    refine ⟨lost, ?_, hlost.imp_right (fun h => ⟨fv, t, cb, rfl, h⟩)⟩
    simpa only [Call.runsRefresh, Call.startsFor, List.append_nil] using hperm
  have hl : ∀ fv t cb, c ≠ .lookup fv t cb := fun fv t cb h => hl ⟨fv, t, cb, h⟩
  refine ⟨[], ?_, Or.inl rfl⟩
  rw [List.append_nil]
  by_cases herase : ∃ t, c = .eraseFinder t
  · obtain ⟨t, rfl⟩ := herase
    cases he
    simp only [Call.runsRefresh, Call.startsFor, List.append_nil]
    exact List.Perm.of_eq (congrArg (rest.flatMap Call.refreshFns ++ ·) (SortedMap.collect_erase _ _ _ _))
  have herase : c.erasesFinder = none := by
    cases c with
    | eraseFinder t => exact absurd ⟨t, rfl⟩ herase
    | _ => rfl
  have hsame := owed_congr rest (fun t => CallersAux.exec_findNodesCallback he (fun fv cb => hl fv t cb)
    (by rintro rfl; cases herase))
  cases hends : c.ends with
  | none =>
    have hcs := owed_append p.1 rest (fun x hx => erasesFinder_of_makes (exec_makes he x hx) hends)
    have hcall := handsOn he hends hl
    rw [hcs, owed_cons herase]
    refine List.perm_iff_count.2 (fun fn => ?_)
    have h1 := hsame.count_eq fn
    have h2 := congrArg (List.count fn) hcall
    simp only [List.count_append] at h1 h2 ⊢
    omega
  | some e =>
    obtain ⟨t, ok⟩ := e
    obtain ⟨nf, r, hf, hnot, hcs⟩ := CallersAux.ends_spec (hstate t) hends he
    have hnone : c.runsRefresh = [] ∧ c.startsFor = [] ∧ c.refreshFns = [] := by
      cases c with
      | findNodesFail | findNodesFinish | findValueFinish => exact ⟨rfl, rfl, rfl⟩
      | _ => cases hends
    obtain ⟨h1, h2, h3⟩ := hnone
    have hsame' := owed_congr (complete nf t ok r ++ rest) (fun t => CallersAux.exec_findNodesCallback he
      (fun fv cb => hl fv t cb) (by rintro rfl; cases herase))
    rw [h1, h2, List.append_nil, List.append_nil, owed_cons herase, h3, List.nil_append, hcs]
    exact hsame'.trans (owed_complete hf (hn.finders t nf hf).1 (fun h => hnot (List.mem_cons_of_mem _ h)))

/-! ## The counter -/

/-- The loop of `refreshBuckets` is the only call that makes one to start a lookup for a bucket. -/
theorem startsFor_of_makes {x : Call} (h : Makes Γ ch n c x) (hc : ∀ i cb w, c ≠ .refreshLoop i cb w) : x.startsFor = [] := by
  cases h with
  | refreshStale hi => exact absurd rfl (hc _ _ _)
  | _ => rfl

/-- The loop goes past a bucket, which it counts and starts a lookup for when it is stale. -/
theorem refreshLoop_cases (n : KademliaNode) (i : Nat) (cb : CallbackSet UserFn) (w : Nat) :
    (keyLenBits ≤ i ∧ n.refreshLoop i cb w = (n, [])) ∨
      (∃ h : i < keyLenBits, n.stale (n.buckets ⟨i, h⟩) = false ∧ n.refreshLoop i cb w = (n, [.refreshLoop (i + 1) cb w])) ∨
      ∃ h : i < keyLenBits, n.stale (n.buckets ⟨i, h⟩) = true ∧ n.refreshLoop i cb w =
        ({ n with refreshWaiting := n.refreshWaiting.modify w (· + 1) },
          [.refreshSingleBucket i (.of ⟨cb, w⟩ ⟨cb, w⟩), .refreshLoop (i + 1) cb w]) := by
  unfold refreshLoop
  split
  · rename_i hi
    split
    · rename_i hs
      exact Or.inr (Or.inr ⟨hi, hs, rfl⟩)
    · rename_i hs
      exact Or.inr (Or.inl ⟨hi, by simpa using hs, rfl⟩)
  · rename_i hi
    exact Or.inl ⟨Nat.le_of_not_lt hi, rfl⟩

/-- How many of the functions share a counter. -/
def sharing (w : Nat) (fns : List RefreshFn) : Nat := fns.countP (fun fn => decide (fn.waiting = w))

@[simp] theorem sharing_nil (w : Nat) : sharing w [] = 0 := rfl

@[simp] theorem sharing_append (w : Nat) (l l' : List RefreshFn) : sharing w (l ++ l') = sharing w l + sharing w l' :=
  List.countP_append

@[simp] theorem sharing_singleton (w : Nat) (fn : RefreshFn) : sharing w [fn] = if fn.waiting = w then 1 else 0 := by
  simp [sharing, List.countP_singleton]

/-- A counter goes up when the loop that shares it makes a call to start a lookup, and down when a function that shares it
runs. -/
theorem counter_exec {w : Nat} {k : UInt32} (he : exec Γ ch c n = some p) (hk : n.refreshWaiting[w]? = some k) :
    p.1.refreshWaiting[w]? = some (k + UInt32.ofNat (sharing w (p.2.flatMap Call.startsFor)) -
      UInt32.ofNat (sharing w c.runsRefresh)) := by
  by_cases hloop : ∃ i cb w', c = .refreshLoop i cb w'
  · obtain ⟨i, cb, w', rfl⟩ := hloop
    cases he
    rcases refreshLoop_cases n i cb w' with ⟨-, h⟩ | ⟨-, -, h⟩ | ⟨-, -, h⟩
    · simpa [h, Call.runsRefresh] using hk
    · simpa [h, Call.runsRefresh, Call.startsFor] using hk
    · simp only [h, Call.runsRefresh, Call.startsFor, CallbackSet.of, List.flatMap_cons, List.flatMap_nil, List.append_nil,
        sharing_singleton, sharing_nil, List.getElem?_modify, hk]
      split <;> simp
  have hnone : p.2.flatMap Call.startsFor = [] := List.flatMap_eq_nil_iff.2 (fun x hx =>
    startsFor_of_makes (exec_makes he x hx) (fun i cb w' h => hloop ⟨i, cb, w', h⟩))
  rw [hnone, sharing_nil]
  by_cases hrun : ∃ fn, c = .refreshed fn
  · obtain ⟨fn, rfl⟩ := hrun
    cases he
    simp only [refreshed, Call.runsRefresh, sharing_singleton, List.getElem?_modify, hk]
    split <;> simp
  have hruns : c.runsRefresh = [] := by
    cases c with
    | refreshed fn => exact absurd ⟨fn, rfl⟩ hrun
    | _ => rfl
  rw [hruns, sharing_nil]
  by_cases hstart : ∃ cb, c = .refreshBuckets cb
  · obtain ⟨cb, rfl⟩ := hstart
    cases he
    have hlt := (List.getElem?_eq_some_iff.1 hk).1
    simpa [List.getElem?_append_left hlt] using hk
  have hsame : p.1.refreshWaiting = n.refreshWaiting := by
    have hch := exec_changes he
    generalize p.1 = n' at hch
    cases hch with
    | counters r hc =>
      cases c with
      | refreshLoop i cb w' => exact absurd ⟨i, cb, w', rfl⟩ hloop
      | refreshed fn => exact absurd ⟨fn, rfl⟩ hrun
      | refreshBuckets cb => exact absurd ⟨cb, rfl⟩ hstart
      | _ => cases hc
    | _ => rfl
  simpa [hsame] using hk

/-- The counters are never given up. -/
theorem length_refreshWaiting_le (he : exec Γ ch c n = some p) : n.refreshWaiting.length ≤ p.1.refreshWaiting.length := by
  refine Nat.le_of_not_lt (fun hlt => ?_)
  have hk := counter_exec he (List.getElem?_eq_getElem (i := p.1.refreshWaiting.length) hlt)
  exact absurd (List.getElem?_eq_some_iff.1 hk).1 (Nat.lt_irrefl _)

/-- Every function of `refreshBuckets` that is known in a reachable configuration shares a counter that was allocated. -/
theorem refreshing_of_run {ok : NodeConfig → NodeLabel → Prop} (h : Run (nodeProgram Γ) ok (startNode config key offset) m) :
    Refreshing (fun fn => fn.waiting < m.state.refreshWaiting.length) m.state m.stack := by
  refine h.invariant (I := fun m => Refreshing (fun fn => fn.waiting < m.state.refreshWaiting.length) m.state m.stack) ?_ ?_
  · refine ⟨fun t nf hf => (by cases hf), fun fv t cb hmem => (by cases hmem), fun c hc => (by cases hc)⟩
  · intro m l m' _ hI _ hs
    cases hs with
    | @run r c rest n tr n' cs hw he =>
      have hle := length_refreshWaiting_le he
      refine Refreshing.exec (hI.mono (fun fn hfn => Nat.lt_of_lt_of_le hfn hle)) he ?_
      rintro cb rfl
      cases he
      show n.refreshWaiting.length < (n.refreshWaiting ++ [0]).length
      rw [List.length_append]
      exact Nat.lt_succ_self _
    | event hc => exact hI.enter hc
    | reentry hf hc => exact hI.enter (isEvent_of_enters (Γ := Γ) (Or.inr hc))
    | leave hf => exact hI.tail

/-- A function is owed by a call that waits, or by a finder. -/
theorem mem_owed {fn : RefreshFn} : fn ∈ owed n stack ↔ (∃ c ∈ stack, fn ∈ c.refreshFns) ∨ ∃ t nf,
    n.nodesBeingFound.find? t = some nf ∧ .eraseFinder t ∉ stack ∧ fn ∈ nf.findNodesCallback.refreshFns := by
  rw [owed, List.mem_append, List.mem_flatMap, SortedMap.mem_collect]
  simp only [mem_erasing]

end RefreshAux

end Dhtsim
