import Dhtsim.Lemmas.Refreshes
import Dhtsim.Model.Outside

/-!
# Reporting a refresh

`refreshBuckets` counts the lookups that it starts, and `cb_fn` reports completion when it has counted down to zero. The loop
counts up and starts lookups in turn, so the counter is at zero too early when the first lookup is over before the loop goes on,
and nothing counts down when no bucket is stale (`refresh_reports_once`).
-/

namespace Dhtsim

open CallMachine KademliaNode RefreshAux

def RefreshEvent.isStart : RefreshEvent → Bool
  | .started _ => true
  | _ => false

/-- How many lookups were started. -/
def startedLookups (log : List RefreshEvent) : Nat := log.countP RefreshEvent.isStart

/-- Completion is reported once, when the last lookup that was started is completed. -/
structure ReportsOnce (log : List RefreshEvent) : Prop where
  reported : startedLookups log = log.count .completed → log.count .reported = 1 ∧ log.getLast? = some .reported
  notYet : startedLookups log ≠ log.count .completed → .reported ∉ log

/-- The functions of `refreshBuckets` for which a call has still to start a lookup. -/
def Call.drives : Call → List RefreshFn
  | .lookup _ _ cb => cb.refreshFns
  | .refreshSingleBucket _ cb => cb.successFns
  | .refreshLoop _ cb waiting => [⟨cb, waiting⟩]
  | _ => []

/-- How many buckets the loop with the counter has still to look at. -/
def Call.bucketsLeft (waiting : Nat) : Call → Nat
  | .refreshLoop i _ w => if w = waiting then keyLenBits - i else 0
  | _ => 0

namespace ReportAux

variable {Γ : Ctx} {config : Config} {key t : KademliaKey} {offset : Time} {ch : Choice} {c : Call} {n n' : KademliaNode}
  {p : KademliaNode × List Call} {rest stack : List Call} {tr : NodeTrace} {cb : CallbackSet UserFn} {w : Nat}
  {log : List RefreshEvent} {m m' : WatchedConfig}

/-! ## What the transcript says about the counter -/

/-- What holds in every configuration that a call of `refreshBuckets` leads to. The lookups that were started are completed or
on their way, and the counter counts the latter and those that are about to be started. -/
structure Watch (Γ : Ctx) (cb : CallbackSet UserFn) (w : Nat) (n : KademliaNode) (log : List RefreshEvent) (stack : List Call)
    (tr : NodeTrace) : Prop where
  orderly : Orderly Γ n stack
  lookups : ∀ t, LookupState Γ True t n stack tr
  fns : Refreshing (fun fn => fn.waiting = w → fn.cb = cb) n stack
  grounded : stack.Pairwise (fun c x => (∃ fn ∈ c.drives, fn.waiting = w) → x.erasesFinder = none)
  counter : n.refreshWaiting[w]? =
    some (UInt32.ofNat (sharing w (owed n stack) + sharing w (stack.flatMap Call.startsFor)))
  started : startedLookups log = log.count .completed + sharing w (owed n stack)
  room : startedLookups log + sharing w (stack.flatMap Call.startsFor) + (stack.map (Call.bucketsLeft w)).sum ≤ keyLenBits
  reported : log.count .reported ≤ log.count .completed

theorem lt_of_watch (h : Watch Γ cb w n log stack tr) : w < n.refreshWaiting.length :=
  (List.getElem?_eq_some_iff.1 h.counter).1

/-- Only the calls of `refreshBuckets` start lookups for it. -/
theorem drives_of_makes {x : Call} {fn : RefreshFn} (h : Makes Γ ch n c x) (hfn : fn ∈ x.drives) :
    fn ∈ c.drives ∨ fn.waiting = n.refreshWaiting.length := by
  cases h with
  | storeLookup => cases hfn
  | refreshStart =>
    rw [List.mem_singleton.1 hfn]
    exact Or.inr rfl
  | refreshStale hi => exact Or.inl hfn
  | refreshNext => exact Or.inl hfn
  | refreshLookup =>
    refine Or.inl ?_
    simpa [Call.drives, CallbackSet.refreshFns, CallbackSet.of, FindNodesFn.refreshFns] using hfn
  | _ => cases hfn

/-- While lookups are being started no finder is erased under them. -/
theorem grounded_exec (h : Watch Γ cb w n log (c :: rest) tr) (he : exec Γ ch c n = some p) :
    (p.2 ++ rest).Pairwise (fun c x => (∃ fn ∈ c.drives, fn.waiting = w) → x.erasesFinder = none) := by
  have hlt := lt_of_watch h
  obtain ⟨hc, hrest⟩ := List.pairwise_cons.1 h.grounded
  have hdrives : ∀ x ∈ p.2, (∃ fn ∈ x.drives, fn.waiting = w) → ∃ fn ∈ c.drives, fn.waiting = w := by
    rintro x hx ⟨fn, hfn, hw⟩
    rcases drives_of_makes (exec_makes he x hx) hfn with hfn | hlen
    · exact ⟨fn, hfn, hw⟩
    · omega
  refine List.pairwise_append.2 ⟨List.pairwise_of_forall_mem_list ?_, hrest, fun x hx y hy hd => hc y hy (hdrives x hx hd)⟩
  intro x hx y hy hd
  have hends : c.ends = none := by
    obtain ⟨fn, hfn, -⟩ := hdrives x hx hd
    cases c with
    | findNodesFail | findNodesFinish | findValueFinish => cases hfn
    | _ => rfl
  exact erasesFinder_of_makes (exec_makes he y hy) hends

/-- The loop has one bucket less to look at when it makes a call to start a lookup. -/
theorem bucketsLeft_exec (he : exec Γ ch c n = some p) (hw : w < n.refreshWaiting.length) :
    sharing w (p.2.flatMap Call.startsFor) + (p.2.map (Call.bucketsLeft w)).sum ≤ c.bucketsLeft w := by
  by_cases hloop : ∃ i cb w', c = .refreshLoop i cb w'
  · obtain ⟨i, cb, w', rfl⟩ := hloop
    cases he
    rcases refreshLoop_cases n i cb w' with ⟨-, h⟩ | ⟨hi, -, h⟩ | ⟨hi, -, h⟩
    · simp [h]
    · simp only [h, List.flatMap_cons, List.flatMap_nil, Call.startsFor, List.append_nil, sharing_nil, List.map_cons,
        List.map_nil, List.sum_cons, List.sum_nil, Call.bucketsLeft]
      split_ifs <;> omega
    · simp only [h, List.flatMap_cons, List.flatMap_nil, Call.startsFor, CallbackSet.of, List.append_nil, sharing_singleton,
        List.map_cons, List.map_nil, List.sum_cons, List.sum_nil, Call.bucketsLeft]
      split_ifs <;> omega
  have hstarts : p.2.flatMap Call.startsFor = [] := List.flatMap_eq_nil_iff.2 (fun x hx =>
    startsFor_of_makes (exec_makes he x hx) (fun i cb w' h => hloop ⟨i, cb, w', h⟩))
  have hleft : ∀ x ∈ p.2, x.bucketsLeft w = 0 := by
    intro x hx
    have hmakes := exec_makes he x hx
    cases hmakes with
    | refreshStart => exact if_neg (by omega)
    | refreshNext => exact absurd ⟨_, _, _, rfl⟩ hloop
    | _ => rfl
  rw [hstarts, sharing_nil, Nat.zero_add, List.map_congr_left hleft]
  simp

theorem startedLookups_append (l l' : List RefreshEvent) : startedLookups (l ++ l') = startedLookups l + startedLookups l' :=
  List.countP_append

/-- What a call adds to the transcript. -/
theorem count_refreshEvents (Γ : Ctx) (ch : Choice) (w : Nat) (n : KademliaNode) (c : Call) :
    startedLookups (n.refreshEvents Γ ch w c) = sharing w c.startsFor ∧
      (n.refreshEvents Γ ch w c).count .completed = sharing w c.runsRefresh ∧
      (n.refreshEvents Γ ch w c).count .reported ≤ sharing w c.runsRefresh := by
  cases c with
  | refreshSingleBucket i cb =>
    have hall : ∀ (b : Bool) (l : List RefreshFn), startedLookups (l.map (fun _ => RefreshEvent.started b)) = l.length ∧
        (l.map (fun _ => RefreshEvent.started b)).count .completed = 0 ∧
        (l.map (fun _ => RefreshEvent.started b)).count .reported = 0 := by
      intro b l
      induction l with
      | nil => exact ⟨rfl, rfl, rfl⟩
      | cons fn l ih =>
        obtain ⟨h1, h2, h3⟩ := ih
        refine ⟨?_, ?_, ?_⟩
        · rw [List.map_cons, startedLookups, List.countP_cons_of_pos rfl, List.length_cons]
          exact congrArg (· + 1) h1
        · rw [List.map_cons, List.count_cons_of_ne (by simp), h2]
        · rw [List.map_cons, List.count_cons_of_ne (by simp), h3]
    obtain ⟨h1, h2, h3⟩ := hall (n.endsAtOnce Γ (n.refreshTarget i (randomizeKey Γ ch)))
      (cb.successFns.filter (fun fn => decide (fn.waiting = w)))
    exact ⟨h1.trans List.countP_eq_length_filter.symm, h2, Nat.le_of_eq h3⟩
  | refreshed fn =>
    simp only [refreshEvents, Call.startsFor, Call.runsRefresh, sharing_nil, sharing_singleton]
    split_ifs
    · exact ⟨rfl, rfl, Nat.le_refl _⟩
    · exact ⟨rfl, rfl, Nat.zero_le _⟩
    · exact ⟨rfl, rfl, Nat.le_refl _⟩
  | _ => exact ⟨rfl, rfl, Nat.le_refl _⟩

/-- What is on its way after a call: what was before, with what it passed on to a lookup and without what ran. -/
theorem sharing_owed (h : Watch Γ cb w n log (c :: rest) tr) (he : exec Γ ch c n = some p) :
    sharing w (owed p.1 (p.2 ++ rest)) + sharing w c.runsRefresh = sharing w (owed n (c :: rest)) + sharing w c.startsFor := by
  obtain ⟨lost, hperm, hlost⟩ := owed_exec h.lookups h.fns he
  -- nothing that shares the counter is lost
  have hnone : sharing w lost = 0 := by
    rcases hlost with rfl | ⟨fv, t, cb', rfl, rfl, herase⟩
    · rfl
    · refine List.countP_eq_zero.2 (fun fn hfn => ?_)
      intro hw
      have hground := (List.pairwise_cons.1 h.grounded).1 _ herase ⟨fn, hfn, of_decide_eq_true hw⟩
      cases hground
  have hcount := hperm.countP_eq (fun fn => decide (fn.waiting = w))
  rw [← sharing, ← sharing, sharing_append, sharing_append, sharing_append, hnone] at hcount
  omega

/-- A call keeps the transcript true. -/
theorem watch_exec (h : Watch Γ cb w n log (c :: rest) tr) (he : exec Γ ch c n = some p) :
    Watch Γ cb w p.1 (log ++ n.refreshEvents Γ ch w c) (p.2 ++ rest) ((c, ch) :: tr) := by
  obtain ⟨hs, hc, hr⟩ := count_refreshEvents Γ ch w n c
  have howed := sharing_owed h he
  have hlt := lt_of_watch h
  have hleft := bucketsLeft_exec he hlt
  have hstarted := h.started
  have hroom := h.room
  have hcounter := counter_exec he h.counter
  have hreported := h.reported
  refine ⟨h.orderly.exec he, fun t => LookupAux.lookupState_exec h.orderly (Or.inl trivial) (h.lookups t) he,
    h.fns.exec he ?_, grounded_exec h he, ?_, ?_, ?_, ?_⟩
  · rintro cb' - hlen
    exact absurd (show n.refreshWaiting.length = w from hlen) (by omega)
  · rw [hcounter]
    simp only [List.flatMap_append, List.flatMap_cons, sharing_append] at howed ⊢
    refine congrArg some ?_
    rw [← UInt32.ofNat_add, ← UInt32.ofNat_sub (by omega)]
    congr 1
    omega
  · rw [startedLookups_append, List.count_append, hs, hc]
    omega
  · simp only [startedLookups_append, List.flatMap_append, List.flatMap_cons, List.map_append, List.map_cons,
      List.sum_append, List.sum_cons, sharing_append] at hroom ⊢
    omega
  · rw [List.count_append, List.count_append, hc]
    omega

/-- A call that has nothing to do with refreshing does not count. -/
theorem watch_cons (h : Watch Γ cb w n log stack tr) (ho : Orderly Γ n (c :: stack)) (hc : c.isEvent = true) :
    Watch Γ cb w n log (c :: stack) tr := by
  obtain ⟨h1, h2, -, -⟩ := eq_nil_of_isEvent hc
  have hnone : c.drives = [] ∧ c.erasesFinder = none ∧ c.bucketsLeft w = 0 := by
    cases c with
    | lookup fv t cb => exact ⟨h1, rfl, rfl⟩
    | refreshSingleBucket | refreshLoop | eraseFinder => cases hc
    | _ => exact ⟨rfl, rfl, rfl⟩
  obtain ⟨h3, h4, h5⟩ := hnone
  have howed : owed n (c :: stack) = owed n stack := by rw [owed_cons h4, h1, List.nil_append]
  refine ⟨ho, fun t => LookupAux.lookupState_enter hc (h.lookups t), h.fns.enter hc, List.pairwise_cons.2 ⟨?_, h.grounded⟩,
    ?_, ?_, ?_, h.reported⟩
  · rintro y - ⟨fn, hfn, -⟩
    rw [h3] at hfn
    cases hfn
  · rw [howed, List.flatMap_cons, h2, List.nil_append]
    exact h.counter
  · rw [howed]
    exact h.started
  · rw [List.flatMap_cons, h2, List.nil_append, List.map_cons, List.sum_cons, h5, Nat.zero_add]
    exact h.room

theorem watch_leave (hc : c.isUserCode = true) (h : Watch Γ cb w n log (c :: rest) tr) : Watch Γ cb w n log rest tr := by
  cases c with
  | userCode =>
    have howed : owed n (.userCode :: rest) = owed n rest := owed_cons rfl
    refine ⟨h.orderly.tail, fun t => LookupAux.lookupState_leave rfl (h.lookups t), h.fns.tail,
      (List.pairwise_cons.1 h.grounded).2, ?_, ?_, ?_, h.reported⟩
    · rw [← howed]
      exact h.counter
    · rw [← howed]
      exact h.started
    · simpa [Call.startsFor, Call.bucketsLeft] using h.room
  | _ => cases hc

/-- What the watched program does is what the node does. -/
theorem watched_exec {s s' : WatchedNode} {cs : List Call} (he : (watchedProgram Γ w).exec ch c s = some (s', cs)) :
    exec Γ ch c s.node = some (s'.node, cs) ∧ s'.log = s.log ++ s.node.refreshEvents Γ ch w c := by
  obtain ⟨p, hp, heq⟩ := Option.map_eq_some_iff.1 he
  cases heq
  exact ⟨hp, rfl⟩

/-- The transcript stays true. -/
theorem watch_of_run {ok : WatchedConfig → NodeLabel → Prop} {m₀ : WatchedConfig} (h : Run (watchedProgram Γ w) ok m₀ m)
    (h₀ : Watch Γ cb w m₀.state.node m₀.state.log m₀.stack m₀.trace) :
    Watch Γ cb w m.state.node m.state.log m.stack m.trace := by
  refine h.invariant (I := fun m => Watch Γ cb w m.state.node m.state.log m.stack m.trace) h₀ ?_
  intro m l m' _ hI _ hs
  cases hs with
  | run hw he =>
    obtain ⟨he, hlog⟩ := watched_exec he
    rw [hlog]
    exact watch_exec hI he
  | event hc => exact watch_cons hI (hI.orderly.event hc) hc
  | reentry hf hc => exact watch_cons hI (hI.orderly.reentry hc) (isEvent_of_enters (Γ := Γ) (Or.inr hc))
  | leave hf => exact watch_leave hf hI

/-- `refreshBuckets` allocates a counter that no function shares. -/
theorem watch_start (h : Run (nodeProgram Γ) anyStep (startNode config key offset) ⟨n, [], tr⟩) (cb : CallbackSet UserFn)
    (ch : Choice) : Watch Γ cb n.refreshWaiting.length { n with refreshWaiting := n.refreshWaiting ++ [0] } []
      [.refreshLoop 0 cb n.refreshWaiting.length] ((.refreshBuckets cb, ch) :: tr) := by
  have he : exec Γ ch (.refreshBuckets cb) n = some ({ n with refreshWaiting := n.refreshWaiting ++ [0] },
      [.refreshLoop 0 cb n.refreshWaiting.length]) := rfl
  have horder := orderly_of_run h
  have hfns : Refreshing (fun fn => fn.waiting < n.refreshWaiting.length) n [] := refreshing_of_run h
  have ho : Orderly Γ n [.refreshBuckets cb] := by
    refine ⟨horder.records, fun c hc => ?_, List.pairwise_singleton _ _⟩
    rw [List.mem_singleton.1 hc]
    trivial
  have hlookups : ∀ t, LookupState Γ True t n [.refreshBuckets cb] tr := fun t =>
    (LookupAux.lookupState_cons_iff rfl rfl).2 (lookupState_of_run True (fun _ _ _ => Or.inl trivial) h t)
  have howed : sharing n.refreshWaiting.length (owed { n with refreshWaiting := n.refreshWaiting ++ [0] }
      [.refreshLoop 0 cb n.refreshWaiting.length]) = 0 := by
    refine List.countP_eq_zero.2 (fun fn hfn hw => ?_)
    have hw := of_decide_eq_true hw
    rcases mem_owed.1 hfn with ⟨c, hc, hmem⟩ | ⟨t, nf, hf, -, hmem⟩
    · rw [List.mem_singleton.1 hc] at hmem
      cases hmem
    · exact Nat.lt_irrefl _ (hw ▸ (hfns.finders t nf hf).2 fn hmem)
  refine ⟨ho.exec he, fun t => LookupAux.lookupState_exec ho (Or.inl trivial) (hlookups t) he, ⟨fun t nf hf => ?_, ?_, ?_⟩,
    List.pairwise_singleton _ _, ?_, ?_, ?_, Nat.le_refl _⟩
  · obtain ⟨heven, hlt⟩ := hfns.finders t nf hf
    exact ⟨heven, fun fn hfn hw => absurd (hw ▸ hlt fn hfn) (Nat.lt_irrefl _)⟩
  · intro fv t cb' hmem
    cases List.mem_singleton.1 hmem
  · intro c hc fn hfn _
    rw [List.mem_singleton.1 hc] at hfn
    cases List.mem_singleton.1 hfn
    rfl
  · rw [howed, List.getElem?_concat_length]
    rfl
  · rw [howed]
    rfl
  · simp [startedLookups, Call.startsFor, Call.bucketsLeft]

/-! ## Reports -/

/-- A call that neither starts a lookup for the refresh nor runs its function leaves the transcript alone. -/
theorem refreshEvents_eq_nil (h1 : ∀ fn ∈ c.drives, fn.waiting ≠ w) (h2 : ∀ fn, c = .refreshed fn → fn.waiting ≠ w) :
    n.refreshEvents Γ ch w c = [] := by
  cases c with
  | refreshSingleBucket i cb =>
    have hnil : cb.successFns.filter (fun fn => decide (fn.waiting = w)) = [] :=
      List.filter_eq_nil_iff.2 (fun fn hfn hw => h1 fn hfn (of_decide_eq_true hw))
    rw [refreshEvents, hnil, List.map_nil]
  | refreshed fn => rw [refreshEvents, if_neg (h2 fn rfl)]
  | _ => rfl

/-- `cb_fn` reports when no lookup is left that is on its way or about to be started. -/
theorem doneWaiting_iff {fn : RefreshFn} (h : Watch Γ cb w n log (.refreshed fn :: rest) tr) (hw : fn.waiting = w)
    (he : exec Γ ch (.refreshed fn) n = some p) : n.doneWaiting w = true ↔
      sharing w (owed p.1 (p.2 ++ rest)) + sharing w ((p.2 ++ rest).flatMap Call.startsFor) = 0 := by
  have h' := watch_exec h he
  have hcounter := h'.counter
  have hstarted := h'.started
  have hroom := h'.room
  have hp : p.1.refreshWaiting = n.refreshWaiting.modify w (· - 1) := by
    cases he
    rw [← hw]
    rfl
  generalize sharing w (owed p.1 (p.2 ++ rest)) = a at hcounter hstarted ⊢
  generalize sharing w ((p.2 ++ rest).flatMap Call.startsFor) = b at hcounter hroom ⊢
  have hle : a + b ≤ 160 := Nat.le_trans (by omega) hroom
  rw [doneWaiting, ← hp, hcounter, decide_eq_true_iff, Option.some.injEq, ← UInt32.toNat_inj, UInt32.toNat_ofNat']
  have hzero : (0 : UInt32).toNat = 0 := rfl
  omega

/-- `refreshBuckets` has returned: no lookup will be started for it. -/
def Returned (w : Nat) (stack : List Call) : Prop := ∀ c ∈ stack, ∀ fn ∈ c.drives, fn.waiting ≠ w

theorem returned_exec (h : Watch Γ cb w n log (c :: rest) tr) (hd : Returned w (c :: rest)) (he : exec Γ ch c n = some p) :
    Returned w (p.2 ++ rest) := by
  have hlt := lt_of_watch h
  intro x hx fn hfn hw
  rcases List.mem_append.1 hx with hx | hx
  · rcases drives_of_makes (exec_makes he x hx) hfn with hfn | hlen
    · exact hd c List.mem_cons_self fn hfn hw
    · omega
  · exact hd x (List.mem_cons_of_mem _ hx) fn hfn hw

theorem returned_cons (hd : Returned w stack) (hc : c.isEvent = true) : Returned w (c :: stack) := by
  intro x hx fn hfn
  rcases List.mem_cons.1 hx with rfl | hx
  · cases x with
    | lookup fv t cb =>
      have hnil : cb.refreshFns = [] := (eq_nil_of_isEvent hc).1
      rw [show (Call.lookup fv t cb).drives = cb.refreshFns from rfl, hnil] at hfn
      cases hfn
    | refreshSingleBucket | refreshLoop => cases hc
    | _ => cases hfn
  · exact hd x hx fn hfn

theorem sharing_startsFor (hd : Returned w stack) : sharing w (stack.flatMap Call.startsFor) = 0 := by
  refine List.countP_eq_zero.2 (fun fn hfn hw => ?_)
  obtain ⟨c, hc, hfn⟩ := List.mem_flatMap.1 hfn
  refine hd c hc fn ?_ (of_decide_eq_true hw)
  cases c with
  | refreshSingleBucket i cb => exact hfn
  | _ => cases hfn

/-- The last function that runs is the one that reports. -/
theorem reportsOnce_exec (h : Watch Γ cb w n log (c :: rest) tr) (hd : Returned w (c :: rest)) (hlog : ReportsOnce log)
    (he : exec Γ ch c n = some p) : ReportsOnce (log ++ n.refreshEvents Γ ch w c) := by
  by_cases hrun : ∃ fn, c = .refreshed fn ∧ fn.waiting = w
  · obtain ⟨fn, rfl, hw⟩ := hrun
    have h' := watch_exec h he
    have hstarts := sharing_startsFor (returned_exec h hd he)
    have hdone := doneWaiting_iff h hw he
    rw [hstarts, Nat.add_zero] at hdone
    -- before this function ran there was one on its way
    have hnot : .reported ∉ log := by
      refine hlog.notYet ?_
      have hstarted := h.started
      rw [owed_cons rfl, sharing_append, show (Call.refreshed fn).refreshFns = [fn] from rfl, sharing_singleton,
        if_pos hw] at hstarted
      omega
    have hstarted := h'.started
    have hevents : n.refreshEvents Γ ch w (.refreshed fn) =
        .completed :: if n.doneWaiting w then [.reported] else [] := by
      rw [refreshEvents, if_pos hw]
    rw [hevents] at hstarted ⊢
    cases hwaiting : n.doneWaiting w with
    | true =>
      rw [hwaiting] at hstarted
      have hzero := hdone.1 hwaiting
      refine ⟨fun _ => ⟨?_, ?_⟩, fun hne => absurd (by omega) hne⟩
      · rw [List.count_append, List.count_eq_zero_of_not_mem hnot]
        rfl
      · rw [List.getLast?_append]
        rfl
    | false =>
      rw [hwaiting] at hstarted
      refine ⟨fun heq => ?_, fun _ hmem => ?_⟩
      · rw [hdone.2 (by omega)] at hwaiting
        cases hwaiting
      · rcases List.mem_append.1 hmem with hmem | hmem
        · exact hnot hmem
        · simp at hmem
  · rw [refreshEvents_eq_nil (hd c List.mem_cons_self) (fun fn hc hw => hrun ⟨fn, hc, hw⟩), List.append_nil]
    exact hlog

/-- After `refreshBuckets` has returned no lookup is started for it, and what was reported as it should stays so. -/
theorem returned_of_run {ok : WatchedConfig → NodeLabel → Prop} {m₁ : WatchedConfig} (h : Run (watchedProgram Γ w) ok m₁ m)
    (hwatch : Watch Γ cb w m₁.state.node m₁.state.log m₁.stack m₁.trace) (hd : Returned w m₁.stack) :
    Returned w m.stack ∧ startedLookups m.state.log = startedLookups m₁.state.log ∧
      (ReportsOnce m₁.state.log → ReportsOnce m.state.log) := by
  refine h.invariant (I := fun m => Returned w m.stack ∧ startedLookups m.state.log = startedLookups m₁.state.log ∧
    (ReportsOnce m₁.state.log → ReportsOnce m.state.log)) ⟨hd, rfl, fun h => h⟩ ?_
  rintro m l m' hr ⟨hret, hstarted, honce⟩ - hs
  have hW := watch_of_run hr hwatch
  cases hs with
  | @run r c rest s tr s' cs hw he =>
    obtain ⟨he, hlog⟩ := watched_exec he
    rw [hlog]
    refine ⟨returned_exec hW hret he, ?_, fun h => reportsOnce_exec hW hret (honce h) he⟩
    have hstarts : sharing w c.startsFor = 0 := by
      have hall := sharing_startsFor hret
      rw [List.flatMap_cons, sharing_append] at hall
      omega
    rw [startedLookups_append, (count_refreshEvents Γ r w s.node c).1, hstarts]
    exact hstarted
  | event hc => exact ⟨returned_cons hret hc, hstarted, honce⟩
  | reentry hf hc => exact ⟨returned_cons hret (isEvent_of_enters (Γ := Γ) (Or.inr hc)), hstarted, honce⟩
  | leave hf => exact ⟨fun x hx => hret x (List.mem_cons_of_mem _ hx), hstarted, honce⟩

/-- The transcript only grows. -/
theorem log_grows {ok : WatchedConfig → NodeLabel → Prop} {m₁ : WatchedConfig} (h : Run (watchedProgram Γ w) ok m₁ m) :
    m₁.state.log <+: m.state.log := by
  refine h.invariant (I := fun m => m₁.state.log <+: m.state.log) List.prefix_rfl ?_
  intro m l m' _ hI _ hs
  cases hs with
  | run hw he =>
    rw [(watched_exec he).2]
    exact hI.trans (List.prefix_append _ _)
  | event hc => exact hI
  | reentry hf hc => exact hI
  | leave hf => exact hI

/-! ## While the loop runs -/

/-- A call that cannot end the lookup for a target before the loop of `refreshBuckets` is over: a reply or a timeout comes in
when nothing runs. -/
def Tame (t : KademliaKey) : Call → Prop
  | .base (.send _ _ _ _) => True
  | .base _ => False
  | .tick _ => False
  | .findNodesStep t' _ => t' ≠ t
  | .findNodesFail t' => t' ≠ t
  | .findNodesFinish t' => t' ≠ t
  | .findValueFinish t' _ => t' ≠ t
  | .eraseFinder t' => t' ≠ t
  | _ => True

theorem tame_of_makes {x : Call} {nf : NodeFinder} (h : Makes Γ ch n c x) (hc : Tame t c) (hlive : n.dead = false)
    (hf : n.nodesBeingFound.find? t = some nf) : Tame t x := by
  cases h with
  | tickDrain | tickOverdue | drainMessage | drainNext | retry | giveUp | giveUpErase | overdueNext | resolve | resolveErase |
    receive | dispatch | tickBase | pingSucceeded | pingFailed | valueFound | replied | timedOut => cases hc
  | sendDead hd =>
    rw [hlive] at hd
    cases hd
  | @lookupStart fv t' cb hnone =>
    rintro rfl
    rw [hnone] at hf
    cases hf
  | stepFail | stepFinish | failErase | finishErase | valueFinishErase => exact hc
  | _ => trivial

theorem tame_of_isPublic (hc : c.isPublic = true) : Tame t c := by
  cases c with
  | ping | lookup | store | storeAt | observe => trivial
  | _ => cases hc

/-- The lookup for a target that was started for the refresh is not over, and will not be while the loop runs. -/
structure Unfinished (w : Nat) (t : KademliaKey) (n : KademliaNode) (log : List RefreshEvent) (stack : List Call) : Prop where
  live : n.dead = false
  calls : ∀ c ∈ stack, Tame t c
  finder : ∃ nf fn, n.nodesBeingFound.find? t = some nf ∧ fn ∈ nf.findNodesCallback.refreshFns ∧ fn.waiting = w
  unreported : .reported ∉ log

theorem Unfinished.sharing_pos (h : Unfinished w t n log stack) : 0 < sharing w (owed n stack) := by
  obtain ⟨nf, fn, hf, hfn, hw⟩ := h.finder
  exact List.countP_pos_iff.2 ⟨fn, mem_owed.2 (Or.inr ⟨t, nf, hf, fun hmem => h.calls _ hmem rfl, hfn⟩), decide_eq_true hw⟩

/-- The finder is still there after a call, with what it was passed. -/
theorem finder_exec {nf : NodeFinder} {fn : RefreshFn} (he : exec Γ ch c n = some p) (hc : c ≠ .eraseFinder t)
    (hf : n.nodesBeingFound.find? t = some nf) (hfn : fn ∈ nf.findNodesCallback.refreshFns) :
    ∃ nf', p.1.nodesBeingFound.find? t = some nf' ∧ fn ∈ nf'.findNodesCallback.refreshFns := by
  by_cases hl : ∃ fv cb, c = .lookup fv t cb
  · obtain ⟨fv, cb, rfl⟩ := hl
    simp only [exec, lookup, hf, Option.some.injEq] at he
    subst he
    refine ⟨_, LookupAux.find?_setFinder_self _, ?_⟩
    rw [refreshFns_add]
    exact List.mem_append_left _ hfn
  · have hsame := CallersAux.exec_findNodesCallback he (fun fv cb h => hl ⟨fv, cb, h⟩) hc
    rw [hf] at hsame
    obtain ⟨nf', hf', hcb⟩ := Option.map_eq_some_iff.1 hsame
    refine ⟨nf', hf', ?_⟩
    rwa [show nf'.findNodesCallback = nf.findNodesCallback from hcb]

theorem unfinished_exec (hwatch : Watch Γ cb w n log (c :: rest) tr) (h : Unfinished w t n log (c :: rest))
    (he : exec Γ ch c n = some p) : Unfinished w t p.1 (log ++ n.refreshEvents Γ ch w c) (p.2 ++ rest) := by
  obtain ⟨nf, fn, hf, hfn, hw⟩ := h.finder
  have hc := h.calls c List.mem_cons_self
  have hcalls : ∀ x ∈ p.2 ++ rest, Tame t x := by
    intro x hx
    rcases List.mem_append.1 hx with hx | hx
    · exact tame_of_makes (exec_makes he x hx) hc h.live hf
    · exact h.calls x (List.mem_cons_of_mem _ hx)
  have hlive : p.1.dead = false := by
    rw [exec_dead he (by rintro rfl; cases hc)]
    exact h.live
  obtain ⟨nf', hf', hfn'⟩ := finder_exec he (by rintro rfl; exact hc rfl) hf hfn
  have hpos : 0 < sharing w (owed p.1 (p.2 ++ rest)) :=
    Unfinished.sharing_pos ⟨hlive, hcalls, ⟨nf', fn, hf', hfn', hw⟩, h.unreported⟩
  refine ⟨hlive, hcalls, ⟨nf', fn, hf', hfn', hw⟩, fun hmem => ?_⟩
  rcases List.mem_append.1 hmem with hmem | hmem
  · exact h.unreported hmem
  · cases c with
    | refreshSingleBucket i cb =>
      obtain ⟨fn, -, heq⟩ := List.mem_map.1 hmem
      cases heq
    | refreshed fn =>
      rw [refreshEvents] at hmem
      split at hmem
      · rename_i hfw
        cases hwaiting : n.doneWaiting w with
        | true =>
          have hzero := (doneWaiting_iff hwatch hfw he).1 hwaiting
          omega
        | false =>
          rw [hwaiting] at hmem
          simp at hmem
      · cases hmem
    | _ => cases hmem

/-- As long as a lookup is not over nothing is to be reported. -/
theorem Unfinished.reportsOnce (h : Unfinished w t n log stack) (hwatch : Watch Γ cb w n log stack tr) : ReportsOnce log := by
  have hpos := h.sharing_pos
  have hstarted := hwatch.started
  exact ⟨fun heq => absurd heq (by omega), fun _ => h.unreported⟩

/-- A lookup that the loop leaves unfinished is so until the loop is over, and then the reports are as they should be. -/
theorem unfinished_of_run {ok : WatchedConfig → NodeLabel → Prop} {m₁ : WatchedConfig} (h : Run (watchedProgram Γ w) ok m₁ m)
    (hwatch : Watch Γ cb w m₁.state.node m₁.state.log m₁.stack m₁.trace)
    (hu : Unfinished w t m₁.state.node m₁.state.log m₁.stack) :
    Unfinished w t m.state.node m.state.log m.stack ∨ (Returned w m.stack ∧ ReportsOnce m.state.log) := by
  refine h.invariant (I := fun m => Unfinished w t m.state.node m.state.log m.stack ∨
    (Returned w m.stack ∧ ReportsOnce m.state.log)) (Or.inl hu) ?_
  intro m l m' hr hI hok hs
  have hW := watch_of_run hr hwatch
  rcases hI with hI | ⟨hret, honce⟩
  · cases hs with
    | run hw he =>
      obtain ⟨he, hlog⟩ := watched_exec he
      rw [hlog]
      exact Or.inl (unfinished_exec hW hI he)
    | event hc =>
      exact Or.inr ⟨returned_cons (fun x hx => absurd hx List.not_mem_nil) hc, hI.reportsOnce hW⟩
    | reentry hf hc =>
      refine Or.inl ⟨hI.live, fun x hx => ?_, hI.finder, hI.unreported⟩
      rcases List.mem_cons.1 hx with rfl | hx
      · exact tame_of_isPublic hc
      · exact hI.calls x hx
    | leave hf => exact Or.inl ⟨hI.live, fun x hx => hI.calls x (List.mem_cons_of_mem _ hx), hI.finder, hI.unreported⟩
  · obtain ⟨hret', -, honce'⟩ := returned_of_run (Run.refl.step hok hs.step_eq) hW hret
    exact Or.inr ⟨hret', honce' honce⟩

/-! ## The loop step by step -/

/-- The call on top runs next. -/
theorem head_exec {ok : WatchedConfig → NodeLabel → Prop} (h : Run (watchedProgram Γ w) ok ⟨⟨n, log⟩, c :: rest, tr⟩ m)
    (hm : m.stack = []) (hc : c.isUserCode = false) (hwatch : Watch Γ cb w n log (c :: rest) tr) : ∃ ch p,
      exec Γ ch c n = some p ∧
      Run (watchedProgram Γ w) ok ⟨⟨p.1, log ++ n.refreshEvents Γ ch w c⟩, p.2 ++ rest, (c, ch) :: tr⟩ m ∧
      Watch Γ cb w p.1 (log ++ n.refreshEvents Γ ch w c) (p.2 ++ rest) ((c, ch) :: tr) := by
  obtain ⟨ch, ⟨s', cs⟩, he, hr⟩ := h.head_run hc (by rw [hm]; simp)
  obtain ⟨hp, hlog⟩ := watched_exec he
  obtain ⟨n', log'⟩ := s'
  obtain rfl : log' = log ++ n.refreshEvents Γ ch w c := hlog
  exact ⟨ch, (n', cs), hp, hr, watch_exec hwatch hp⟩

/-- The loop passes over the buckets that are not stale. -/
theorem scan {ok : WatchedConfig → NodeLabel → Prop} (k i : Nat) (hk : keyLenBits - i = k)
    (h : Run (watchedProgram Γ w) ok ⟨⟨n, log⟩, [.refreshLoop i cb w], tr⟩ m) (hm : m.stack = [])
    (hwatch : Watch Γ cb w n log [.refreshLoop i cb w] tr) :
    ((∀ j : Fin keyLenBits, i ≤ j → n.stale (n.buckets j) = false) ∧
      ∃ tr', Run (watchedProgram Γ w) ok ⟨⟨n, log⟩, [], tr'⟩ m ∧ Watch Γ cb w n log [] tr') ∨
    ∃ (j : Fin keyLenBits) (tr' : NodeTrace), n.stale (n.buckets j) = true ∧
      Run (watchedProgram Γ w) ok ⟨⟨{ n with refreshWaiting := n.refreshWaiting.modify w (· + 1) }, log⟩,
        [.refreshSingleBucket j (.of ⟨cb, w⟩ ⟨cb, w⟩), .refreshLoop (j + 1) cb w], tr'⟩ m ∧
      Watch Γ cb w { n with refreshWaiting := n.refreshWaiting.modify w (· + 1) } log
        [.refreshSingleBucket j (.of ⟨cb, w⟩ ⟨cb, w⟩), .refreshLoop (j + 1) cb w] tr' := by
  induction k generalizing i tr with
  | zero =>
    obtain ⟨ch, p, he, hr, hW⟩ := head_exec h hm rfl hwatch
    have hp : n.refreshLoop i cb w = p := Option.some.inj he
    have hevents : n.refreshEvents Γ ch w (.refreshLoop i cb w) = [] := rfl
    rw [hevents, List.append_nil] at hr hW
    rcases refreshLoop_cases n i cb w with ⟨-, h⟩ | ⟨hi, -⟩ | ⟨hi, -⟩
    · rw [h] at hp
      subst hp
      exact Or.inl ⟨fun j hj => absurd j.isLt (by omega), _, hr, hW⟩
    · omega
    · omega
  | succ k ih =>
    obtain ⟨ch, p, he, hr, hW⟩ := head_exec h hm rfl hwatch
    have hp : n.refreshLoop i cb w = p := Option.some.inj he
    have hevents : n.refreshEvents Γ ch w (.refreshLoop i cb w) = [] := rfl
    rw [hevents, List.append_nil] at hr hW
    rcases refreshLoop_cases n i cb w with ⟨hi, -⟩ | ⟨hi, hs, h⟩ | ⟨hi, hs, h⟩
    · omega
    · rw [h] at hp
      subst hp
      rcases ih (i + 1) (by omega) hr hW with ⟨hnone, hr'⟩ | hsome
      · refine Or.inl ⟨fun j hj => ?_, hr'⟩
        by_cases hij : (j : Nat) = i
        · have hj' : j = ⟨i, hi⟩ := Fin.ext hij
          rw [hj']
          exact hs
        · exact hnone j (by omega)
      · exact Or.inr hsome
    · rw [h] at hp
      subst hp
      exact Or.inr ⟨⟨i, hi⟩, _, hs, hr, hW⟩

/-- A new lookup has somebody to ask when it was told of anybody. -/
theorem learn_new_eq_nil {fv : Bool} {set : CallbackSet FindNodesFn} {l : List BucketEntry}
    (h : ((NodeFinder.new fv t set).learn l).uncontacted = []) : l = [] := by
  obtain ⟨added, heq, hperm, -, -, hseen⟩ := (NodeFinder.new fv t set).learn_spec l
  have hadded : added = [] := by
    rw [heq] at h
    exact (List.append_eq_nil_iff.1 h).2
  rw [hadded] at hperm
  have hnone : ((NodeFinder.new fv t set).learn l).seen = [] := hperm.eq_nil
  cases l with
  | nil => rfl
  | cons e l =>
    have hmem := (hseen e.key).2 (Or.inr List.mem_cons_self)
    rw [hnone] at hmem
    cases hmem

/-- What `refreshSingleBucket` passes to the lookup that it starts for a bucket. -/
def refreshSet (cb : CallbackSet UserFn) (w : Nat) : CallbackSet FindNodesFn :=
  .of (.refresh (.of ⟨cb, w⟩ ⟨cb, w⟩)) (.refresh (.of ⟨cb, w⟩ ⟨cb, w⟩))

theorem mem_refreshSet (cb : CallbackSet UserFn) (w : Nat) : (⟨cb, w⟩ : RefreshFn) ∈ (refreshSet cb w).refreshFns :=
  List.mem_singleton_self _

/-- A lookup that is not over when the loop goes on. -/
def GoesOn (Γ : Ctx) (cb : CallbackSet UserFn) (w : Nat) (m : WatchedConfig) : Prop :=
  ∃ (t : KademliaKey) (m₁ : WatchedConfig), Run (watchedProgram Γ w) anyStep m₁ m ∧
    Watch Γ cb w m₁.state.node m₁.state.log m₁.stack m₁.trace ∧ Unfinished w t m₁.state.node m₁.state.log m₁.stack ∧
    m₁.state.log = [.started false]

/-- The transcript of a lookup that is over at once, and reported. -/
def overAtOnce : List RefreshEvent := [.started true, .completed, .reported]

/-- A lookup that is over at once. -/
def EndsAtOnce (Γ : Ctx) (cb : CallbackSet UserFn) (w : Nat) (m : WatchedConfig) : Prop :=
  ∃ m₁ : WatchedConfig, Run (watchedProgram Γ w) anyStep m₁ m ∧
    Watch Γ cb w m₁.state.node m₁.state.log m₁.stack m₁.trace ∧ m₁.state.log = overAtOnce

/-- A new lookup with nobody to ask. -/
theorem endsAtOnce_of_step {j : Nat} (hf : n.nodesBeingFound.find? t = some (NodeFinder.new false t (refreshSet cb w)))
    (h : Run (watchedProgram Γ w) anyStep ⟨⟨n, [.started true]⟩, [.findNodesStep t [], .refreshLoop j cb w], tr⟩ m)
    (hm : m.stack = []) (hwatch : Watch Γ cb w n [.started true] [.findNodesStep t [], .refreshLoop j cb w] tr) :
    EndsAtOnce Γ cb w m := by
  -- the step finds the lookup exhausted
  obtain ⟨ch, p, he, hr, hW⟩ := head_exec h hm rfl hwatch
  have hstep : n.findNodesStep Γ t [] = (n.setFinder t (NodeFinder.new false t (refreshSet cb w)), [.findNodesFinish t]) := by
    rcases findNodesStep_cases (Γ := Γ) hf [] with ⟨-, h⟩ | ⟨top, uncontacted, hs, -⟩
    · exact h
    · have hperm : (sortByDistanceTo Γ t []).Perm [] := Γ.sort_perm _ _
      have hs : sortByDistanceTo Γ t [] = top :: uncontacted := hs
      rw [hs] at hperm
      cases hperm.eq_nil
  obtain rfl : n.findNodesStep Γ t [] = p := Option.some.inj he
  rw [hstep] at hr hW
  have hevents : n.refreshEvents Γ ch w (.findNodesStep t []) = [] := rfl
  rw [hevents, List.append_nil] at hr hW
  -- it is finished
  obtain ⟨ch, p, he, hr, hW⟩ := head_exec hr hm rfl hW
  obtain ⟨nf, hnf, -, hcs⟩ := findNodesFinish_eq he
  cases (LookupAux.find?_setFinder_self _).symm.trans hnf
  obtain ⟨n₁, cs⟩ := p
  obtain rfl := hcs
  have hevents : ∀ n₁ : KademliaNode, n₁.refreshEvents Γ ch w (.findNodesFinish t) = [] := fun _ => rfl
  rw [hevents, List.append_nil] at hr hW
  -- the function of the lookup runs that of `refreshBuckets`
  obtain ⟨ch, p, he, hr, hW⟩ := head_exec hr hm rfl hW
  cases he
  have hevents : ∀ r, n₁.refreshEvents Γ ch w (.found true (.refresh (.of ⟨cb, w⟩ ⟨cb, w⟩)) r) = [] := fun _ => rfl
  rw [hevents, List.append_nil] at hr hW
  obtain ⟨ch, p, he, hr, hW'⟩ := head_exec hr hm rfl hW
  have hdone : n₁.doneWaiting w = true := by
    by_contra hnot
    have hstarts : p.2.flatMap Call.startsFor = [] := List.flatMap_eq_nil_iff.2 (fun x hx =>
      startsFor_of_makes (exec_makes he x hx) (by simp))
    have hstarted := hW'.started
    rw [refreshEvents, if_pos rfl, if_neg hnot] at hstarted
    refine hnot ((doneWaiting_iff hW rfl he).2 ?_)
    rw [List.flatMap_append, hstarts]
    -- one was started, and one is completed
    have hone : startedLookups ([.started true] ++ [.completed]) = 1 ∧
        ([.started true] ++ [.completed] : List RefreshEvent).count .completed = 1 := ⟨rfl, rfl⟩
    rw [hone.1, hone.2] at hstarted
    exact Nat.add_eq_zero_iff.2 ⟨by omega, rfl⟩
  have hevents : n₁.refreshEvents Γ ch w (.refreshed ⟨cb, w⟩) = [.completed, .reported] := by
    rw [refreshEvents, if_pos rfl, hdone]
    rfl
  rw [hevents] at hr hW'
  exact ⟨_, hr, hW', rfl⟩

/-- A new lookup that asks a contact. -/
theorem goesOn_of_step {j : Nat} {e : BucketEntry} {es : List BucketEntry} (hlive : n.dead = false)
    (hf : n.nodesBeingFound.find? t = some (NodeFinder.new false t (refreshSet cb w)))
    (h : Run (watchedProgram Γ w) anyStep ⟨⟨n, [.started false]⟩, [.findNodesStep t (e :: es), .refreshLoop j cb w], tr⟩ m)
    (hm : m.stack = []) (hwatch : Watch Γ cb w n [.started false] [.findNodesStep t (e :: es), .refreshLoop j cb w] tr) :
    GoesOn Γ cb w m := by
  obtain ⟨ch, p, he, hr, hW⟩ := head_exec h hm rfl hwatch
  obtain rfl : n.findNodesStep Γ t (e :: es) = p := Option.some.inj he
  have hevents : n.refreshEvents Γ ch w (.findNodesStep t (e :: es)) = [] := rfl
  rw [hevents, List.append_nil] at hr hW
  rcases findNodesStep_cases (Γ := Γ) hf (e :: es) with ⟨hun, -⟩ | ⟨top, uncontacted, -, hstep⟩
  · cases learn_new_eq_nil hun
  rw [hstep] at hr hW
  refine ⟨t, _, hr, hW, ⟨hlive, ?_, ⟨_, ⟨cb, w⟩, LookupAux.find?_setFinder_self _, ?_, rfl⟩, by simp⟩, rfl⟩
  · intro c hc
    rcases List.mem_pair.1 hc with rfl | rfl
    · trivial
    · trivial
  · obtain ⟨added, heq, -⟩ := (NodeFinder.new false t (refreshSet cb w)).learn_spec (e :: es)
    rw [heq]
    exact mem_refreshSet cb w

/-- The lookup for the first bucket that is stale. -/
theorem first_lookup {i j : Nat} (hlive : n.dead = false) (h : Run (watchedProgram Γ w) anyStep
      ⟨⟨n, []⟩, [.refreshSingleBucket i (.of ⟨cb, w⟩ ⟨cb, w⟩), .refreshLoop j cb w], tr⟩ m) (hm : m.stack = [])
    (hwatch : Watch Γ cb w n [] [.refreshSingleBucket i (.of ⟨cb, w⟩ ⟨cb, w⟩), .refreshLoop j cb w] tr) :
    GoesOn Γ cb w m ∨ EndsAtOnce Γ cb w m := by
  obtain ⟨ch, p, he, hr, hW⟩ := head_exec h hm rfl hwatch
  cases he
  generalize ht : n.refreshTarget i (randomizeKey Γ ch) = t at hr hW
  have hevents : n.refreshEvents Γ ch w (.refreshSingleBucket i (.of ⟨cb, w⟩ ⟨cb, w⟩)) = [.started (n.endsAtOnce Γ t)] := by
    rw [← ht]
    simp [refreshEvents, CallbackSet.of]
  rw [hevents] at hr hW
  clear hevents ht
  obtain ⟨ch', p, he, hr, hW⟩ := head_exec hr hm rfl hW
  have hevents : ∀ cb', n.refreshEvents Γ ch' w (.lookup false t cb') = [] := fun _ => rfl
  rw [hevents, List.append_nil] at hr hW
  simp only [exec, lookup, Option.some.injEq] at he
  split at he
  · -- it joins another one
    rename_i nf hf
    subst he
    have hflag : n.endsAtOnce Γ t = false := by simp [endsAtOnce, hf]
    rw [hflag] at hr hW
    refine Or.inl ⟨t, _, hr, hW, ⟨hlive, ?_, ⟨_, ⟨cb, w⟩, LookupAux.find?_setFinder_self _, ?_, rfl⟩, by simp⟩, rfl⟩
    · intro c hc
      rw [List.mem_singleton.1 hc]
      trivial
    · rw [refreshFns_add]
      exact List.mem_append_right _ (mem_refreshSet cb w)
  · rename_i hf
    subst he
    have hset : (n.setFinder t (NodeFinder.new false t (refreshSet cb w))).nodesBeingFound.find? t =
        some (NodeFinder.new false t (refreshSet cb w)) := LookupAux.find?_setFinder_self _
    have hflag : n.endsAtOnce Γ t = (n.getNearest Γ n.config.k t n.key).isEmpty := by simp [endsAtOnce, hf]
    rw [hflag] at hr hW
    generalize n.getNearest Γ n.config.k t n.key = contacts at hr hW
    cases contacts with
    | nil => exact Or.inr (endsAtOnce_of_step hset hr hm hW)
    | cons e es =>
      have hlive' : (n.setFinder t (NodeFinder.new false t (refreshSet cb w))).dead = false := hlive
      exact Or.inl (goesOn_of_step hlive' hset hr hm hW)

/-- After a lookup that was over at once the report came too early, unless it was the only one. -/
theorem reportsOnce_iff_of_overAtOnce (hpre : overAtOnce <+: log) (hwatch : Watch Γ cb w n log stack tr) :
    ReportsOnce log ↔ startedLookups log = 1 := by
  obtain ⟨later, rfl⟩ := hpre
  have hreported := hwatch.reported
  have hstarted := hwatch.started
  have h1 : startedLookups overAtOnce = 1 := rfl
  have h2 : overAtOnce.count .completed = 1 := rfl
  have h3 : overAtOnce.count .reported = 1 := rfl
  have honly : ∀ {l : List RefreshEvent}, startedLookups l = 0 → l.count .completed = 0 → l.count .reported = 0 → l = [] := by
    intro l hs hc hr
    refine List.eq_nil_iff_forall_not_mem.2 (fun e he => ?_)
    cases e with
    | started b => exact List.countP_eq_zero.1 hs _ he rfl
    | completed => exact List.count_eq_zero.1 hc he
    | reported => exact List.count_eq_zero.1 hr he
  rw [startedLookups_append, List.count_append] at hstarted
  rw [List.count_append, List.count_append] at hreported
  constructor
  · intro h
    by_cases heq : startedLookups (overAtOnce ++ later) = (overAtOnce ++ later).count .completed
    · obtain ⟨hcount, hlast⟩ := h.reported heq
      rw [List.count_append] at hcount
      have hnil : later = [] := by
        by_contra hne
        rw [List.getLast?_append_of_ne_nil _ hne] at hlast
        have hmem := List.count_pos_iff.2 (List.mem_of_getLast? hlast)
        omega
      rw [hnil]
      rfl
    · refine absurd (List.mem_append_left _ ?_) (h.notYet heq)
      simp [overAtOnce]
  · intro h
    rw [startedLookups_append] at h
    have hnil : later = [] := honly (by omega) (by omega) (by omega)
    rw [hnil]
    exact ⟨fun _ => ⟨rfl, rfl⟩, fun hne => absurd rfl hne⟩

/-- The first step of a run that goes on allocates the counter. -/
theorem run_of_start (h₀ : Run (nodeProgram Γ) anyStep (startNode config key offset) ⟨n, [], tr⟩)
    (hlen : n.refreshWaiting.length = w) (h : Run (watchedProgram Γ w) anyStep (startRefresh n cb tr) m)
    (hm : m.stack ≠ [.refreshBuckets cb]) : ∃ ch,
      Run (watchedProgram Γ w) anyStep ⟨⟨{ n with refreshWaiting := n.refreshWaiting ++ [0] }, []⟩, [.refreshLoop 0 cb w],
        (.refreshBuckets cb, ch) :: tr⟩ m ∧
      Watch Γ cb w { n with refreshWaiting := n.refreshWaiting ++ [0] } [] [.refreshLoop 0 cb w]
        ((.refreshBuckets cb, ch) :: tr) := by
  subst hlen
  obtain ⟨ch, ⟨⟨n', log⟩, cs⟩, he, hr⟩ := h.head_run rfl hm
  obtain ⟨he, hlog⟩ := watched_exec he
  cases he
  obtain rfl : log = [] := hlog
  exact ⟨ch, hr, watch_start h₀ cb ch⟩

/-- After the call has returned the reports are as they should be under the condition, and only then. -/
theorem reportsOnce_iff (h₀ : Run (nodeProgram Γ) anyStep (startNode config key offset) ⟨n, [], tr⟩) (hlive : n.dead = false)
    (hlen : n.refreshWaiting.length = w) {m₁ : WatchedConfig}
    (h₁ : Run (watchedProgram Γ w) anyStep (startRefresh n cb tr) m₁) (hreturned : m₁.stack = [])
    (h : Run (watchedProgram Γ w) anyStep m₁ m) :
    ReportsOnce m.state.log ↔ (∃ i, n.stale (n.buckets i) = true) ∧
      (m.state.log.head? = some (.started false) ∨ startedLookups m.state.log = 1) := by
  obtain ⟨ch, hr, hW⟩ := run_of_start h₀ hlen h₁ (by rw [hreturned]; simp)
  have hend : Watch Γ cb w m.state.node m.state.log m.stack m.trace := watch_of_run (hr.trans h) hW
  rcases scan keyLenBits 0 rfl hr hreturned hW with ⟨hnone, tr', hr', hW'⟩ | ⟨j, tr', hstale, hr', hW'⟩
  · -- nothing is started, and nothing reported
    obtain ⟨-, hstarted, -⟩ := returned_of_run (hr'.trans h) hW' (fun x hx => absurd hx List.not_mem_nil)
    have hstarted : startedLookups m.state.log = 0 := hstarted
    have hcompleted := hend.started
    have hreported := hend.reported
    refine ⟨fun honce => ?_, ?_⟩
    · have hcount := (honce.reported (by omega)).1
      omega
    · rintro ⟨⟨i, hi⟩, -⟩
      have hi' : n.stale (n.buckets i) = false := hnone i (Nat.zero_le _)
      rw [hi'] at hi
      cases hi
  · have hstale : ∃ i, n.stale (n.buckets i) = true := ⟨j, hstale⟩
    have hlive' : ({ n with refreshWaiting := (n.refreshWaiting ++ [0]).modify w (· + 1) } : KademliaNode).dead = false := hlive
    rcases first_lookup hlive' hr' hreturned hW' with ⟨t, m₂, hr₂, hW₂, hu, hlog⟩ | ⟨m₂, hr₂, hW₂, hlog⟩
    · have honce : ReportsOnce m₁.state.log := by
        rcases unfinished_of_run hr₂ hW₂ hu with hu | ⟨-, honce⟩
        · exact hu.reportsOnce (watch_of_run hr₂ hW₂)
        · exact honce
      obtain ⟨-, -, hkeep⟩ := returned_of_run h (watch_of_run hr₂ hW₂)
        (by rw [hreturned]; exact fun x hx => absurd hx List.not_mem_nil)
      refine ⟨fun _ => ⟨hstale, Or.inl ?_⟩, fun _ => hkeep honce⟩
      obtain ⟨later, hlater⟩ := log_grows (hr₂.trans h)
      rw [← hlater, hlog]
      rfl
    · have hpre := log_grows (hr₂.trans h)
      rw [hlog] at hpre
      rw [reportsOnce_iff_of_overAtOnce hpre hend]
      refine ⟨fun hone => ⟨hstale, Or.inr hone⟩, ?_⟩
      rintro ⟨-, hhead | hone⟩
      · obtain ⟨later, hlater⟩ := hpre
        rw [← hlater] at hhead
        cases hhead
      · exact hone

/-- `cb_fn` calls `cb.success` when the transcript says so. -/
theorem calls_of_run (h₀ : Run (nodeProgram Γ) anyStep (startNode config key offset) ⟨n, [], tr⟩)
    (hlen : n.refreshWaiting.length = w) (h : Run (watchedProgram Γ w) anyStep (startRefresh n cb tr) m) {fn : RefreshFn}
    (hstack : m.stack = .refreshed fn :: rest) (hw : fn.waiting = w)
    (he : exec Γ ch (.refreshed fn) m.state.node = some p) :
    p.2 = if .reported ∈ m.state.node.refreshEvents Γ ch w (.refreshed fn) then cb.successFns.map .refreshDone else [] := by
  obtain ⟨ch', hr, hW⟩ := run_of_start h₀ hlen h (by rw [hstack]; simp)
  have hend := watch_of_run hr hW
  rw [hstack] at hend
  have hcb : fn.cb = cb := hend.fns.calls _ List.mem_cons_self fn (by simp [Call.refreshFns]) hw
  obtain rfl := Option.some.inj he
  have hevents : .reported ∈ m.state.node.refreshEvents Γ ch w (.refreshed fn) ↔ m.state.node.doneWaiting w = true := by
    rw [refreshEvents, if_pos hw]
    cases m.state.node.doneWaiting w <;> simp
  simp only [hevents, doneWaiting, decide_eq_true_eq]
  rw [refreshed, hw, hcb]

end ReportAux

open ReportAux

/-- Completion of a refresh. A live node calls `refreshBuckets` with any callback set:
1. After the call has returned, in every order of what follows, completion is reported exactly once, and not before the last
   lookup is completed, if and only if some bucket is stale at the call, and the lookup for the first one is not over before
   `findNodes` returns or the loop finds no second bucket stale.
2. A report is a call of `cb.success`: `cb_fn` runs its functions then, and otherwise nothing. -/
theorem refresh_reports_once {Γ : Ctx} {config : Config} {key : KademliaKey} {offset : Time} {n : KademliaNode} {tr : NodeTrace}
    (h₀ : Run (nodeProgram Γ) anyStep (startNode config key offset) ⟨n, [], tr⟩) (hlive : n.dead = false)
    (cb : CallbackSet UserFn) :
    (∀ m₁ m, Run (watchedProgram Γ n.refreshWaiting.length) anyStep (startRefresh n cb tr) m₁ → m₁.stack = [] →
      Run (watchedProgram Γ n.refreshWaiting.length) anyStep m₁ m →
      (ReportsOnce m.state.log ↔ (∃ i, n.stale (n.buckets i) = true) ∧
        (m.state.log.head? = some (.started false) ∨ startedLookups m.state.log = 1))) ∧
    ∀ m fn rest ch p, Run (watchedProgram Γ n.refreshWaiting.length) anyStep (startRefresh n cb tr) m →
      m.stack = .refreshed fn :: rest → fn.waiting = n.refreshWaiting.length →
      exec Γ ch (.refreshed fn) m.state.node = some p →
      p.2 = if .reported ∈ m.state.node.refreshEvents Γ ch n.refreshWaiting.length (.refreshed fn) then
        cb.successFns.map .refreshDone else [] := by
  constructor
  · intro m₁ m h₁ hreturned h
    exact reportsOnce_iff h₀ hlive rfl h₁ hreturned h
  · intro m fn rest ch p h hstack hw he
    exact calls_of_run h₀ rfl h hstack hw he

/-- A node with a contact that was not heard of for the refresh period. -/
def staleContact : List NodeLabel := [.enter (.observe 1 (.starting 0x80))] ++ runs 1 1 ++ [.enter (.tick 1000)] ++ runs 3 6

/-- The contact answers that it knows nobody. -/
def knowsNobody : Message UInt32 :=
  ⟨MessageType.findNodes.code, 1, 0, 15, Ctx.reference.findNodes.write ⟨.starting 0x80, false, false, .zero, 0, [], false, []⟩⟩

/-- What steps with the given labels make of the call of `refreshBuckets`. -/
def refresh (m : NodeConfig) (ls : List NodeLabel) : Option WatchedConfig :=
  follow (watchedProgram .reference m.state.refreshWaiting.length) (fun _ _ => true) (startRefresh m.state (.of 7 8) m.trace) ls

/-- The contact is asked, the loop ends, and the contact answers: then completion is reported. -/
theorem refresh_reports_once_sample : ∃ m : WatchedConfig, m.state.log = [.started false, .completed, .reported] ∧
    ReportsOnce m.state.log := by
  obtain ⟨m, hr, hm⟩ := exists_run_of_follow (nodeProgram .reference) (fun _ _ => true) (sampleNode .zero) staleContact
    (fun m => m.stack.isEmpty && !m.state.dead && m.state.stale (m.state.buckets ⟨0, by decide⟩) &&
      (refresh m (runs 10 166)).any (fun m₁ : WatchedConfig => m₁.stack.isEmpty &&
        (follow (watchedProgram .reference m.state.refreshWaiting.length) (fun _ _ => true) m₁
          (.enter (.base (.handleMessage knowsNobody)) :: runs 200 7)).any (fun m₂ : WatchedConfig =>
            decide (m₂.state.log = [.started false, .completed, .reported])))) (by decide +kernel)
  simp only [Bool.and_eq_true, Bool.not_eq_true', decide_eq_true_eq, Option.any_eq_true, List.isEmpty_iff] at hm
  obtain ⟨⟨⟨hstack, hlive⟩, hstale⟩, m₁, h₁, hreturned, m₂, h₂, hlog⟩ := hm
  obtain ⟨n, stack, tr⟩ := m
  obtain rfl : stack = [] := hstack
  refine ⟨m₂, hlog, ((refresh_reports_once (run_anyStep hr) hlive (.of 7 8)).1 m₁ m₂ (run_anyStep (run_of_follow h₁)) hreturned
    (run_anyStep (run_of_follow h₂))).2 ⟨⟨_, hstale⟩, Or.inl ?_⟩⟩
  rw [hlog]
  rfl

/-- A node with two contacts that are too close for `getNearest` to find, and were not heard of for the refresh period. -/
def closeContacts : List NodeLabel :=
  [.enter (.observe 1 ⟨[0, 0, 0x08] ++ List.replicate 17 0, rfl⟩)] ++ runs 1 1 ++
    [.enter (.observe 2 ⟨[0, 0, 0x04] ++ List.replicate 17 0, rfl⟩)] ++ runs 2 1 ++ [.enter (.tick 1000)] ++ runs 3 6

/-- Where no bucket is stale completion is not reported; where the lookups for two buckets are over at once it is reported
twice. -/
theorem refresh_reports_once_false :
    (∃ m : WatchedConfig, Run (watchedProgram .reference 0) anyStep
      (startRefresh (sampleNode .zero).state (.of 7 8) []) m ∧ m.stack = [] ∧ m.state.log = [] ∧
      ¬ReportsOnce m.state.log) ∧
    ∃ (n : KademliaNode) (tr : NodeTrace) (m : WatchedConfig),
      Run (nodeProgram .reference) (fun m l => freshTags m l = true) (sampleNode .zero) ⟨n, [], tr⟩ ∧
      n.dead = false ∧ Run (watchedProgram .reference n.refreshWaiting.length) anyStep (startRefresh n (.of 7 8) tr) m ∧
      m.stack = [] ∧ m.state.log = [.started true, .completed, .reported, .started true, .completed, .reported] ∧
      ¬ReportsOnce m.state.log := by
  constructor
  · obtain ⟨m, hr, hm⟩ := exists_run_of_follow (watchedProgram .reference 0) (fun _ _ => true)
      (startRefresh (sampleNode .zero).state (.of 7 8) []) (runs 1 162)
      (fun m => m.stack.isEmpty && m.state.log.isEmpty) (by decide +kernel)
    simp only [Bool.and_eq_true, List.isEmpty_iff] at hm
    refine ⟨m, run_anyStep hr, hm.1, hm.2, fun h => ?_⟩
    rw [hm.2] at h
    exact absurd (h.reported rfl).1 (by decide)
  · obtain ⟨m, hr, hm⟩ := exists_run_of_follow (nodeProgram .reference) freshTags (sampleNode .zero) closeContacts
      (fun m => m.stack.isEmpty && !m.state.dead &&
        (refresh m (runs 10 29 ++ [.leave] ++ runs 39 9 ++ [.leave] ++ runs 48 140)).any (fun m₁ : WatchedConfig =>
          m₁.stack.isEmpty &&
            decide (m₁.state.log = [.started true, .completed, .reported, .started true, .completed, .reported])))
      (by decide +kernel)
    simp only [Bool.and_eq_true, Bool.not_eq_true', decide_eq_true_eq, Option.any_eq_true, List.isEmpty_iff] at hm
    obtain ⟨⟨hstack, hlive⟩, m₁, h₁, hreturned, hlog⟩ := hm
    obtain ⟨n, stack, tr⟩ := m
    obtain rfl : stack = [] := hstack
    refine ⟨n, tr, m₁, hr, hlive, run_anyStep (run_of_follow h₁), hreturned, hlog, fun h => ?_⟩
    rw [hlog] at h
    exact absurd (h.reported rfl).1 (by decide)

end Dhtsim
