import Dhtsim.Lemmas.Effects
import Dhtsim.Lemmas.Held
import Dhtsim.Model.Application

/-!
# The course of a record

What was given to `send` under a tag has a record until a reply arrives or the retries are used up; then its callbacks run, and
the record is erased. `Phase` lists how far this can be, and every step keeps it: here it matters that the tags differ, and that
nothing looks at the records while the callbacks of one of them run.
-/

namespace Dhtsim

open CallMachine

namespace ApplicationCall

variable {A F : Type}

/-- The calls that look at the records, or lead to such a call. -/
def isOuter : ApplicationCall A F → Bool
  | .base (.tick _) => true
  | .base .drain => true
  | .base (.overdue _) => true
  | .base (.attemptRetry _) => true
  | .base (.handleMessage _) => true
  | .base (.receive _) => true
  | .base (.erase _) => true
  | _ => false

end ApplicationCall

/-- Nothing on the stack looks at the records before a record is erased. -/
def InOrder {A F : Type} (stack : List (ApplicationCall A F)) : Prop :=
  stack.Pairwise (fun x y => x.isOuter = true → y.erases = none)

namespace BaseApplication

variable {A F : Type} {drawn : Tag} {c : ApplicationCall A F} {app app' : BaseApplication A F}
  {cs rest : List (ApplicationCall A F)}

/-! ## Calls -/

/-- The loop over the records goes on past the record it looked at, after what it did about it. -/
theorem overdue_cases (after : Option Tag) (h : execCall drawn (.base (.overdue after)) app = some (app', cs)) :
    app' = app ∧ ((app.callbacks.next after = none ∧ cs = []) ∨
      ∃ tag r, app.callbacks.next after = some (tag, r) ∧
        ((¬r.nextSend ≤ app.epoch ∧ cs = [.base (.overdue (some tag))]) ∨
          (r.nextSend ≤ app.epoch ∧ r.needsRetry = true ∧
            cs = [.base (.attemptRetry tag), .base (.overdue (some tag))]) ∨
          (r.nextSend ≤ app.epoch ∧ r.needsRetry = false ∧
            cs = r.callback.failureFns.map (fun fn => .base (.callback false fn r.message)) ++
              [.base (.erase tag), .base (.overdue (some tag))]))) := by
  simp only [execCall, exec, Option.some.injEq] at h
  cases hn : app.callbacks.next after with
  | none =>
    rw [hn] at h
    cases h
    exact ⟨rfl, Or.inl ⟨rfl, rfl⟩⟩
  | some e =>
    obtain ⟨tag, r⟩ := e
    rw [hn] at h
    dsimp only at h
    split_ifs at h with hdue hr
    · cases h
      exact ⟨rfl, Or.inr ⟨tag, r, rfl, Or.inr (Or.inl ⟨hdue, hr, rfl⟩)⟩⟩
    · cases h
      refine ⟨rfl, Or.inr ⟨tag, r, rfl, Or.inr (Or.inr ⟨hdue, by simpa using hr, ?_⟩)⟩⟩
      simp
    · cases h
      exact ⟨rfl, Or.inr ⟨tag, r, rfl, Or.inl ⟨hdue, rfl⟩⟩⟩

/-- A message runs the success callbacks of the record with its tag. -/
theorem receive_cases {m : Message A} (h : execCall drawn (.base (.receive m)) app = some (app', cs)) :
    app' = app ∧ ((app.callbacks.find? m.tag = none ∧ cs = []) ∨ ∃ r, app.callbacks.find? m.tag = some r ∧
      cs = r.callback.successFns.map (fun fn => .base (.callback true fn m)) ++ [.base (.erase m.tag)]) := by
  simp only [execCall, exec, Option.some.injEq] at h
  cases hf : app.callbacks.find? m.tag with
  | none =>
    rw [hf] at h
    cases h
    exact ⟨rfl, Or.inl ⟨rfl, rfl⟩⟩
  | some r =>
    rw [hf] at h
    cases h
    exact ⟨rfl, Or.inr ⟨r, rfl, by simp⟩⟩

/-- A call other than the two that look for a record to end makes calls that run no callback of a record and erase none, if the
application lives. -/
theorem makes_quiet (h : execCall drawn c app = some (app', cs)) (hlive : app.dead = false)
    (hover : ∀ after, c ≠ .base (.overdue after)) (hrec : ∀ m, c ≠ .base (.receive m)) :
    ∀ x ∈ cs, x.erases = none ∧ (∀ tag, x.invokes tag = []) ∧ x.resends = none ∧
      (x.isOuter = true → c.isOuter = true) := by
  cases c with
  | userCode => cases h
  | base b =>
    cases b with
    | overdue after => exact absurd rfl (hover after)
    | receive m => exact absurd rfl (hrec m)
    | send m cb mr t =>
      simp only [execCall, exec, Option.some.injEq, Prod.mk.injEq] at h
      rw [send_of_live hlive] at h
      intro x hx
      rw [← h.2] at hx
      cases hx
    | tick t =>
      simp only [execCall, exec, hlive, Option.some.injEq, Prod.mk.injEq] at h
      intro x hx
      rw [← h.2] at hx
      simp only [Bool.false_eq_true, if_false, List.map_cons, List.map_nil, List.mem_pair] at hx
      rcases hx with rfl | rfl <;> exact ⟨rfl, fun _ => rfl, rfl, fun _ => rfl⟩
    | drain =>
      simp only [execCall, exec, Option.some.injEq] at h
      intro x hx
      split at h
      · cases h
        cases hx
      · cases h
        simp only [List.map_cons, List.map_nil, List.mem_pair] at hx
        rcases hx with rfl | rfl <;> exact ⟨rfl, fun _ => rfl, rfl, fun _ => rfl⟩
    | _ =>
      cases h
      intro x hx
      cases hx <;> first
        | exact ⟨rfl, fun _ => rfl, rfl, by simp [ApplicationCall.isOuter]⟩
        | rename_i hx; cases hx

/-- What a call of a live application makes is in order: the callbacks of a record, its end, and what goes on. -/
theorem makes_inOrder (h : execCall drawn c app = some (app', cs)) (hlive : app.dead = false) :
    InOrder cs ∧ ∀ x ∈ cs, x.isOuter = true → c.isOuter = true := by
  have hcallbacks : ∀ (ok : Bool) (fns : List F) (m : Message A) (tail : List (ApplicationCall A F)), InOrder tail →
      InOrder (fns.map (fun fn => .base (.callback ok fn m)) ++ tail) := by
    intro ok fns m tail ht
    refine List.pairwise_append.2 ⟨List.pairwise_map.2 (List.pairwise_of_forall (fun _ _ _ => rfl)), ht, ?_⟩
    intro x hx y _ hout
    obtain ⟨fn, -, rfl⟩ := List.mem_map.1 hx
    cases hout
  by_cases hover : ∃ after, c = .base (.overdue after)
  · obtain ⟨after, rfl⟩ := hover
    refine ⟨?_, fun x _ _ => rfl⟩
    obtain ⟨-, ⟨-, rfl⟩ | ⟨tag, r, -, ⟨-, rfl⟩ | ⟨-, -, rfl⟩ | ⟨-, -, rfl⟩⟩⟩ := overdue_cases after h
    · exact List.Pairwise.nil
    · exact List.pairwise_singleton _ _
    · exact List.pairwise_pair.2 (fun _ => rfl)
    · exact hcallbacks _ _ _ _ (List.pairwise_pair.2 (fun _ => rfl))
  by_cases hrec : ∃ m, c = .base (.receive m)
  · obtain ⟨m, rfl⟩ := hrec
    refine ⟨?_, fun x _ _ => rfl⟩
    obtain ⟨-, ⟨-, rfl⟩ | ⟨r, -, rfl⟩⟩ := receive_cases h
    · exact List.Pairwise.nil
    · exact hcallbacks _ _ _ _ (List.pairwise_singleton _ _)
  · have hquiet := makes_quiet h hlive (fun after hc => hover ⟨after, hc⟩) (fun m hc => hrec ⟨m, hc⟩)
    exact ⟨List.pairwise_of_forall_mem_list (fun x _ y hy _ => (hquiet y hy).1), fun x hx => (hquiet x hx).2.2.2⟩

theorem inOrder_step (h : execCall drawn c app = some (app', cs)) (hlive : app.dead = false) (hd : InOrder (c :: rest)) :
    InOrder (cs ++ rest) := by
  obtain ⟨hc, hrest⟩ := List.pairwise_cons.1 hd
  obtain ⟨hcs, hout⟩ := makes_inOrder h hlive
  exact List.pairwise_append.2 ⟨hcs, hrest, fun x hx y hy hox => hc y hy (hout x hx hox)⟩

end BaseApplication

/-! ## The phases -/

/-- How far what was given to `send` under a tag has come: its record, the functions that ran or are about to, how often it is
being erased, how often it was sent again and erased, and what was given. -/
structure Course (A F : Type) where
  record : Option (SentMessage A F)
  outcome : List (Bool × F)
  erasing : Nat
  retransmitted : Nat
  ended : Nat
  given : List (Sent A F)

section Phases

variable {A F : Type}

def course (tag : Tag) (m : ApplicationConfig A F) : Course A F where
  record := m.state.callbacks.find? tag
  outcome := invoked tag m.trace ++ m.stack.flatMap (·.invokes tag)
  erasing := m.stack.countP (·.erases = some tag)
  retransmitted := retransmitted tag m.trace
  ended := ended tag m.trace
  given := (given m.trace).filter (·.message.tag = tag)

/-- The record of what was given, sent again `k` times. -/
structure IsRecordOf (r : SentMessage A F) (s : Sent A F) (k : Nat) : Prop where
  message : r.message = s.message
  callback : r.callback = s.callback
  maxRetries : r.maxRetries.toNat = s.maxRetries.toNat
  retries : r.retries.toNat = k
  le : k ≤ s.maxRetries.toNat

/-- The phases that a tag goes through: unused; a record waits for its reply; the callbacks of the record run, those for failure
after all retries; and the record is gone. -/
inductive Phase (tag : Tag) : Course A F → Prop where
  | unused : Phase tag ⟨none, [], 0, 0, 0, []⟩
  | waiting {r : SentMessage A F} {s : Sent A F} {k : Nat} (hs : s.message.tag = tag) (hr : IsRecordOf r s k) :
      Phase tag ⟨some r, [], 0, k, 0, [s]⟩
  | ending {r : SentMessage A F} {s : Sent A F} {k : Nat} (ok : Bool) (hs : s.message.tag = tag) (hr : IsRecordOf r s k)
      (hk : ok = false → k = s.maxRetries.toNat) :
      Phase tag ⟨some r, (s.callback.fns ok).map (ok, ·), 1, k, 0, [s]⟩
  | settled {s : Sent A F} {k : Nat} (ok : Bool) (hs : s.message.tag = tag) (hk : ok = false → k = s.maxRetries.toNat) :
      Phase tag ⟨none, (s.callback.fns ok).map (ok, ·), 0, k, 1, [s]⟩

variable {tag : Tag} {drawn : Tag} {c : ApplicationCall A F} {app app' : BaseApplication A F}
  {cs rest : List (ApplicationCall A F)} {tr : ApplicationTrace A F}

theorem invoked_cons : invoked tag ((c, drawn) :: tr) = invoked tag tr ++ c.invokes tag := by
  simp [invoked]

theorem given_cons : given ((c, drawn) :: tr) = givenBy (c, drawn) ++ given tr := rfl

theorem retransmitted_cons : retransmitted tag ((c, drawn) :: tr) =
    retransmitted tag tr + if c.resends = some tag then 1 else 0 := by
  simp [retransmitted, List.countP_cons]

theorem ended_cons : ended tag ((c, drawn) :: tr) = ended tag tr + if c.erases = some tag then 1 else 0 := by
  simp [ended, List.countP_cons]

/-- What a step makes of the course of a tag. -/
theorem course_run (hcs : c.invokes tag ++ cs.flatMap (·.invokes tag) = cs.flatMap (·.invokes tag) ++ c.invokes tag) :
    course tag ⟨app', cs ++ rest, (c, drawn) :: tr⟩ =
      { record := app'.callbacks.find? tag
        outcome := invoked tag tr ++ (cs.flatMap (·.invokes tag) ++ (c :: rest).flatMap (·.invokes tag))
        erasing := cs.countP (·.erases = some tag) + rest.countP (·.erases = some tag)
        retransmitted := retransmitted tag tr + if c.resends = some tag then 1 else 0
        ended := ended tag tr + if c.erases = some tag then 1 else 0
        given := (givenBy (c, drawn)).filter (·.message.tag = tag) ++ (given tr).filter (·.message.tag = tag) } := by
  simp only [course, invoked_cons, given_cons, retransmitted_cons, ended_cons, List.flatMap_append, List.countP_append,
    List.filter_append, List.append_assoc, List.flatMap_cons]
  rw [← List.append_assoc (c.invokes tag), hcs, List.append_assoc]

/-- What a step that makes no call makes of the course of a tag. -/
theorem course_run_nil (app : BaseApplication A F) : course tag ⟨app', [] ++ rest, (c, drawn) :: tr⟩ =
    let q := course tag ⟨app, c :: rest, tr⟩
    { record := app'.callbacks.find? tag
      outcome := q.outcome
      erasing := rest.countP (·.erases = some tag)
      retransmitted := q.retransmitted + if c.resends = some tag then 1 else 0
      ended := q.ended + if c.erases = some tag then 1 else 0
      given := (givenBy (c, drawn)).filter (·.message.tag = tag) ++ q.given } := by
  rw [course_run (by simp)]
  simp [course]

theorem countP_erases_eq_zero {l : List (ApplicationCall A F)} (h : ∀ x ∈ l, x.erases = none) (tag : Tag) :
    l.countP (·.erases = some tag) = 0 :=
  List.countP_eq_zero.2 (fun x hx => by simp [h x hx])

/-- A step that has nothing to do with a tag leaves its course. -/
theorem course_same (hrecord : app'.callbacks.find? tag = app.callbacks.find? tag)
    (hcs : ∀ x ∈ cs, x.invokes tag = [] ∧ x.erases ≠ some tag) (hresends : c.resends ≠ some tag)
    (herases : c.erases ≠ some tag) (hgiven : (givenBy (c, drawn)).filter (·.message.tag = tag) = []) :
    course tag ⟨app', cs ++ rest, (c, drawn) :: tr⟩ = course tag ⟨app, c :: rest, tr⟩ := by
  have hinvokes : cs.flatMap (·.invokes tag) = [] := List.flatMap_eq_nil_iff.2 (fun x hx => (hcs x hx).1)
  have hcount : cs.countP (·.erases = some tag) = 0 :=
    List.countP_eq_zero.2 (fun x hx => by simpa using (hcs x hx).2)
  rw [course_run (by rw [hinvokes]; simp), hinvokes, hcount, hgiven, if_neg hresends, if_neg herases, hrecord]
  simp [course, herases]

/-- A record that waits for its reply, when nothing is being erased. -/
theorem Phase.waiting_of_record {q : Course A F} {r : SentMessage A F} (h : Phase tag q) (hr : q.record = some r)
    (he : q.erasing = 0) :
    ∃ s k, q = ⟨some r, [], 0, k, 0, [s]⟩ ∧ s.message.tag = tag ∧ IsRecordOf r s k := by
  cases h with
  | unused => cases hr
  | waiting hs hrec => cases hr; exact ⟨_, _, rfl, hs, hrec⟩
  | ending ok hs hrec hk => cases he
  | settled ok hs hk => cases hr

/-- The message of a record has the tag of the record. -/
theorem Phase.tag_of_record {q : Course A F} {r : SentMessage A F} (h : Phase tag q) (hr : q.record = some r) :
    r.message.tag = tag := by
  cases h with
  | unused => cases hr
  | waiting hs hrec => cases hr; rw [hrec.message, hs]
  | ending ok hs hrec hk => cases hr; rw [hrec.message, hs]
  | settled ok hs hk => cases hr

/-- When the callbacks of a record are put on the stack, with its end after them, the record is ending; the other tags are
where they were. -/
theorem phase_fire (ok : Bool) (hphase : ∀ tag, Phase tag (course tag ⟨app, c :: rest, tr⟩)) {t : Tag} {r : SentMessage A F}
    {m : Message A} {more : List (ApplicationCall A F)} (hc : ∀ tag, c.invokes tag = []) (hresends : c.resends = none)
    (herases : c.erases = none) (hgiven : givenBy (c, drawn) = []) (hrest : ∀ x ∈ rest, x.erases = none)
    (hf : app.callbacks.find? t = some r) (hm : m.tag = t) (hmore : ∀ x ∈ more, (∀ tag, x.invokes tag = []) ∧ x.erases = none)
    (hk : ok = false → r.needsRetry = false) (tag : Tag) :
    Phase tag (course tag ⟨app, ((r.callback.fns ok).map (fun fn => .base (.callback ok fn m)) ++
      .base (.erase t) :: more) ++ rest, (c, drawn) :: tr⟩) := by
  by_cases htag : t = tag
  · subst htag
    have hold : (course t ⟨app, c :: rest, tr⟩).erasing = 0 :=
      countP_erases_eq_zero (fun x hx => (List.mem_cons.1 hx).elim (fun h => h ▸ herases) (hrest x)) t
    obtain ⟨s, k, hq, hs, hrec⟩ := (hphase t).waiting_of_record hf hold
    have hcallbacks : ((r.callback.fns ok).map (fun fn => (.base (.callback ok fn m) : ApplicationCall A F))).flatMap
        (·.invokes t) = (s.callback.fns ok).map (ok, ·) := by
      rw [List.flatMap_map, ← hrec.callback, List.map_eq_flatMap]
      exact List.flatMap_congr (fun fn _ => by simp [ApplicationCall.invokes, hm])
    have hinvokes : more.flatMap (·.invokes t) = [] := List.flatMap_eq_nil_iff.2 (fun x hx => (hmore x hx).1 t)
    simp only [course, Course.mk.injEq, hc, List.flatMap_cons, List.nil_append, List.append_eq_nil_iff] at hq
    obtain ⟨-, ⟨hinvoked, hrestinv⟩, -, hretr, hended, hg⟩ := hq
    rw [course_run (by simp [hc])]
    have hnew := Phase.ending ok hs hrec (fun h => ?_)
    · convert hnew using 2
      · rw [hinvoked, List.flatMap_append, hcallbacks, List.flatMap_cons, hinvokes, List.flatMap_cons, hc, hrestinv]
        simp [ApplicationCall.invokes]
      · rw [List.countP_append, List.countP_cons, countP_erases_eq_zero (fun x hx => (hmore x hx).2),
          countP_erases_eq_zero hrest, countP_erases_eq_zero ?_]
        · simp [ApplicationCall.erases]
        · intro x hx
          obtain ⟨fn, -, rfl⟩ := List.mem_map.1 hx
          rfl
      · rw [hretr, hresends]
        rfl
      · rw [hended, herases]
        rfl
      · rw [hgiven, hg]
        rfl
    · have hle : r.maxRetries ≤ r.retries := by simpa [SentMessage.needsRetry] using hk h
      have hle' := UInt64.le_iff_toNat_le.1 hle
      have h1 := hrec.le
      rw [hrec.maxRetries, hrec.retries] at hle'
      omega
  · rw [course_same rfl ?_ (by rw [hresends]; exact nofun) (by rw [herases]; exact nofun) (by rw [hgiven]; rfl)]
    · exact hphase tag
    intro x hx
    simp only [List.mem_append, List.mem_map, List.mem_cons] at hx
    rcases hx with ⟨fn, -, rfl⟩ | rfl | hx
    · exact ⟨if_neg (by rw [hm]; exact htag), by simp [ApplicationCall.erases]⟩
    · exact ⟨rfl, by simpa [ApplicationCall.erases] using htag⟩
    · exact ⟨(hmore x hx).1 tag, by simp [(hmore x hx).2]⟩

/-- A tag under which nothing was given is unused. -/
theorem Phase.unused_of_given {q : Course A F} (h : Phase tag q) (hg : q.given = []) : q = ⟨none, [], 0, 0, 0, []⟩ := by
  cases h with
  | unused => rfl
  | waiting hs hrec => cases hg
  | ending ok hs hrec hk => cases hg
  | settled ok hs hk => cases hg

/-- A message is sent: with something to call, under a tag not used before. -/
theorem phase_send (hphase : ∀ tag, Phase tag (course tag ⟨app, c :: rest, tr⟩)) {m : Message A} {cb : CallbackSet F}
    {mr : UInt32} {t : UInt64} (hc : c = .base (.send m cb mr t)) (hlive : app.dead = false)
    (hdistinct : distinctTags ⟨app, c :: rest, tr⟩ (.run drawn) = true)
    (he : app.execCall drawn c = some (app', cs)) (tag : Tag) :
    cs = [] ∧ Phase tag (course tag ⟨app', cs ++ rest, (c, drawn) :: tr⟩) := by
  subst hc
  simp only [BaseApplication.execCall, BaseApplication.exec, BaseApplication.send_of_live hlive, Option.some.injEq,
    Prod.mk.injEq, List.map_nil] at he
  obtain ⟨rfl, rfl⟩ := he
  refine ⟨rfl, ?_⟩
  have hcallbacks : ∀ m' : Message A, ((app.register m' cb mr (if t = 0 then defaultTimeout else t)).queueOut m').callbacks =
      if cb.isEmpty then app.callbacks else app.callbacks.insert m'.tag
        (SentMessage.new m' cb app.epoch (if t = 0 then defaultTimeout else t) mr) := by
    intro m'
    rw [BaseApplication.queueOut_eq]
    simp only [BaseApplication.register]
    split <;> rfl
  cases hcb : cb.isEmpty with
  | true =>
    rw [course_same ?_ (fun x hx => absurd hx List.not_mem_nil) (by simp [ApplicationCall.resends])
      (by simp [ApplicationCall.erases]) (by simp [givenBy, hcb])]
    · exact hphase tag
    · rw [hcallbacks, if_pos hcb]
  | false =>
    by_cases htag : (m.tagged drawn).tag = tag
    · subst htag
      have hnew : (given tr).filter (·.message.tag = (m.tagged drawn).tag) = [] := by
        rw [List.filter_eq_nil_iff]
        intro s hs heq
        simp only [distinctTags, givenBy, hcb, Bool.false_eq_true, if_false, List.all_cons, List.all_nil, Bool.and_true,
          decide_eq_true_eq] at hdistinct
        exact hdistinct (List.mem_map.2 ⟨s, hs, by simpa using heq⟩)
      have hq := (hphase (m.tagged drawn).tag).unused_of_given hnew
      have herasing : rest.countP (·.erases = some (m.tagged drawn).tag) = 0 := by
        have hold := congrArg Course.erasing hq
        simp only [course, List.countP_cons] at hold
        omega
      rw [course_run_nil app, hq, herasing, hcallbacks, if_neg (by simp [hcb]), SortedMap.find?_insert_self]
      have hgiven : givenBy ((.base (.send m cb mr t) : ApplicationCall A F), drawn) = [⟨m.tagged drawn, cb, mr⟩] := by
        simp [givenBy, hcb]
      simp only [hgiven, decide_true, List.filter_cons_of_pos, List.filter_nil, List.append_nil]
      exact .waiting rfl ⟨rfl, rfl, UInt32.toNat_toUInt64 mr, rfl, Nat.zero_le _⟩
    · rw [course_same ?_ (fun x hx => absurd hx List.not_mem_nil) (by simp [ApplicationCall.resends])
        (by simp [ApplicationCall.erases]) (by simp [givenBy, hcb, htag])]
      · exact hphase tag
      · rw [hcallbacks, if_neg (by simp [hcb]), SortedMap.find?_insert_of_ne _ _ (fun h => htag h.symm)]

/-- A message is sent again, as its record has retries left. -/
theorem phase_retry (hphase : ∀ tag, Phase tag (course tag ⟨app, c :: rest, tr⟩)) {t : Tag} {r : SentMessage A F}
    (hc : c = .base (.attemptRetry t)) (hf : app.callbacks.find? t = some r) (hr : r.needsRetry = true)
    (hrest : ∀ x ∈ rest, x.erases = none) (he : app.execCall drawn c = some (app', cs)) (tag : Tag) :
    cs = [] ∧ Phase tag (course tag ⟨app', cs ++ rest, (c, drawn) :: tr⟩) := by
  subst hc
  have hcallbacks : app'.callbacks = app.callbacks.insert t (r.retry app.epoch) ∧ cs = [] := by
    cases he
    refine ⟨?_, rfl⟩
    rcases BaseApplication.exec_callbacks drawn (.attemptRetry t) app with h | ⟨_, _, _, _, h, -⟩ | ⟨_, h, -⟩ | ⟨t', r', h, hf', h'⟩
    · have hsame := congrArg (·.find? t) h
      simp only [BaseApplication.exec, BaseApplication.attemptRetry, hf, SortedMap.find?_insert_self,
        Option.some.injEq] at hsame
      have hretries := congrArg SentMessage.retries hsame
      simp only [SentMessage.retry] at hretries
      exact absurd hretries (by simp)
    · cases h
    · cases h
    · cases h
      cases hf.symm.trans hf'
      exact h'
  obtain ⟨hcallbacks, rfl⟩ := hcallbacks
  refine ⟨rfl, ?_⟩
  by_cases htag : t = tag
  · subst htag
    have hzero := countP_erases_eq_zero hrest t
    obtain ⟨s, k, hq, hs, hrec⟩ := (hphase t).waiting_of_record hf (by simpa [course, ApplicationCall.erases] using hzero)
    have hlt : k < s.maxRetries.toNat := by
      have hlt := UInt64.lt_iff_toNat_lt.1 (by simpa [SentMessage.needsRetry] using hr)
      rwa [hrec.retries, hrec.maxRetries] at hlt
    have hretries : (r.retries + 1).toNat = k + 1 := by
      have hbound := s.maxRetries.toNat_lt
      rw [UInt64.toNat_add, hrec.retries]
      exact Nat.mod_eq_of_lt (by simp; omega)
    rw [course_run_nil app, hq, hzero, hcallbacks, SortedMap.find?_insert_self]
    have hresends : (.base (.attemptRetry t) : ApplicationCall A F).resends = some t := rfl
    have herases : (.base (.attemptRetry t) : ApplicationCall A F).erases = none := rfl
    simp only [hresends, herases, if_true, reduceCtorEq, if_false]
    exact .waiting hs ⟨hrec.message, hrec.callback, hrec.maxRetries, hretries, hlt⟩
  · rw [course_same ?_ (fun x hx => absurd hx List.not_mem_nil) (by simpa [ApplicationCall.resends] using htag)
      (by simp [ApplicationCall.erases]) rfl]
    · exact hphase tag
    · rw [hcallbacks, SortedMap.find?_insert_of_ne _ _ (fun h => htag h.symm)]

/-- A record is erased, after its callbacks have been put on the stack. -/
theorem phase_erase (hphase : ∀ tag, Phase tag (course tag ⟨app, c :: rest, tr⟩)) {t : Tag} (hc : c = .base (.erase t))
    (hrest : ∀ x ∈ rest, x.erases = none) (he : app.execCall drawn c = some (app', cs)) (tag : Tag) :
    cs = [] ∧ Phase tag (course tag ⟨app', cs ++ rest, (c, drawn) :: tr⟩) := by
  subst hc
  simp only [BaseApplication.execCall, BaseApplication.exec, Option.some.injEq, Prod.mk.injEq, List.map_nil] at he
  obtain ⟨rfl, rfl⟩ := he
  refine ⟨rfl, ?_⟩
  by_cases htag : t = tag
  · subst htag
    have hzero := countP_erases_eq_zero hrest t
    have herases : (.base (.erase t) : ApplicationCall A F).erases = some t := rfl
    have herasing : (course t ⟨app, .base (.erase t) :: rest, tr⟩).erasing = 1 := by
      simp only [course, List.countP_cons, hzero, herases]
      simp
    rw [course_run_nil app, hzero]
    have hp := hphase t
    generalize course t ⟨app, .base (.erase t) :: rest, tr⟩ = q at herasing hp ⊢
    cases hp with
    | unused => cases herasing
    | waiting hs hrec => cases herasing
    | settled ok hs hk => cases herasing
    | ending ok hs hrec hk =>
      have hresends : (.base (.erase t) : ApplicationCall A F).resends = none := rfl
      simp only [SortedMap.find?_erase_self, hresends, herases, if_true, reduceCtorEq, if_false]
      exact .settled ok hs hk
  · rw [course_same ?_ (fun x hx => absurd hx List.not_mem_nil) (by simp [ApplicationCall.resends])
      (by simpa [ApplicationCall.erases] using htag) rfl]
    · exact hphase tag
    · exact SortedMap.find?_erase_of_ne _ (fun h => htag h.symm)

/-- A call that neither looks for a record to end nor ends one, sends or sends again. -/
theorem phase_quiet (hphase : ∀ tag, Phase tag (course tag ⟨app, c :: rest, tr⟩)) (hlive : app.dead = false)
    (hover : ∀ after, c ≠ .base (.overdue after)) (hrec : ∀ m, c ≠ .base (.receive m))
    (herase : ∀ t, c ≠ .base (.erase t)) (hretry : ∀ t, c ≠ .base (.attemptRetry t))
    (hsend : ∀ m cb mr t, c ≠ .base (.send m cb mr t)) (he : app.execCall drawn c = some (app', cs)) (tag : Tag) :
    Phase tag (course tag ⟨app', cs ++ rest, (c, drawn) :: tr⟩) := by
  have hquiet := BaseApplication.makes_quiet he hlive hover hrec
  have hcallbacks : app'.callbacks = app.callbacks := by
    cases c with
    | userCode => cases he
    | base b =>
      by_cases hb : ∃ ok fn m, b = .callback ok fn m
      · obtain ⟨ok, fn, m, rfl⟩ := hb
        cases he
        rfl
      · have happ : app' = (BaseApplication.exec drawn b app).1 := by
          cases b with
          | callback ok fn m => exact absurd ⟨ok, fn, m, rfl⟩ hb
          | _ => cases he; rfl
        rw [happ]
        rcases BaseApplication.exec_callbacks drawn b app with h | ⟨m, cb, mr, t, rfl, -⟩ | ⟨t, rfl, -⟩ | ⟨t, r, rfl, -⟩
        · exact h
        · exact absurd rfl (hsend m cb mr t)
        · exact absurd rfl (herase t)
        · exact absurd rfl (hretry t)
  have hresends : c.resends = none := by
    unfold ApplicationCall.resends
    split
    · exact absurd rfl (hretry _)
    · rfl
  have herases : c.erases = none := by
    unfold ApplicationCall.erases
    split
    · exact absurd rfl (herase _)
    · rfl
  have hgiven : givenBy (c, drawn) = [] := by
    unfold givenBy
    split
    · rename_i heq
      cases heq
      exact absurd rfl (hsend _ _ _ _)
    · rfl
  rw [course_same (show app'.callbacks.find? tag = app.callbacks.find? tag by rw [hcallbacks])
    (fun x hx => ⟨(hquiet x hx).2.1 tag, by simp [(hquiet x hx).1]⟩) (by rw [hresends]; exact nofun) (by rw [herases]; exact nofun) (by rw [hgiven]; rfl)]
  exact hphase tag

/-- What holds throughout the life of an application whose tags differ: the stack is in order, a retry runs at once and on a
record with retries left, and every tag is in one of its phases. -/
structure Courses (m : ApplicationConfig A F) : Prop where
  inOrder : InOrder m.stack
  resends : ∀ x ∈ m.stack.tail, x.resends = none
  retry : ∀ t rest, m.stack = .base (.attemptRetry t) :: rest →
    ∃ r, m.state.callbacks.find? t = some r ∧ r.needsRetry = true
  phase : ∀ tag, Phase tag (course tag m)

/-- Nothing that is being erased waits below a call that looks at the records. -/
theorem Courses.erases_rest (h : Courses ⟨app, c :: rest, tr⟩) (hc : c.isOuter = true) : ∀ x ∈ rest, x.erases = none :=
  fun x hx => (List.pairwise_cons.1 h.inOrder).1 x hx hc

theorem phase_step (h : Courses ⟨app, c :: rest, tr⟩) (hlive : app.dead = false)
    (hdistinct : distinctTags ⟨app, c :: rest, tr⟩ (.run drawn) = true) (he : app.execCall drawn c = some (app', cs))
    (tag : Tag) : Phase tag (course tag ⟨app', cs ++ rest, (c, drawn) :: tr⟩) := by
  by_cases hsend : ∃ m cb mr t, c = .base (.send m cb mr t)
  · obtain ⟨m, cb, mr, t, hc⟩ := hsend
    exact (phase_send h.phase hc hlive hdistinct he tag).2
  by_cases hretry : ∃ t, c = .base (.attemptRetry t)
  · obtain ⟨t, hc⟩ := hretry
    obtain ⟨r, hf, hr⟩ := h.retry t rest (by rw [hc])
    exact (phase_retry h.phase hc hf hr (h.erases_rest (by rw [hc]; rfl)) he tag).2
  by_cases herase : ∃ t, c = .base (.erase t)
  · obtain ⟨t, hc⟩ := herase
    exact (phase_erase h.phase hc (h.erases_rest (by rw [hc]; rfl)) he tag).2
  by_cases hover : ∃ after, c = .base (.overdue after)
  · obtain ⟨after, rfl⟩ := hover
    have hrest := h.erases_rest rfl
    have hplain : (∀ x ∈ cs, x.invokes tag = [] ∧ x.erases ≠ some tag) → app' = app →
        Phase tag (course tag ⟨app', cs ++ rest, (.base (.overdue after), drawn) :: tr⟩) := by
      intro hcs happ
      rw [course_same (show app'.callbacks.find? tag = app.callbacks.find? tag by rw [happ]) hcs
        (by simp [ApplicationCall.resends]) (by simp [ApplicationCall.erases]) rfl]
      exact h.phase tag
    obtain ⟨happ, ⟨-, rfl⟩ | ⟨t, r, hn, ⟨-, rfl⟩ | ⟨-, -, rfl⟩ | ⟨-, hr, rfl⟩⟩⟩ := BaseApplication.overdue_cases after he
    · exact hplain (by simp) happ
    · exact hplain (by simp [ApplicationCall.invokes, ApplicationCall.erases]) happ
    · exact hplain (by simp [ApplicationCall.invokes, ApplicationCall.erases]) happ
    · have hf := SortedMap.find?_eq_some_iff.2 (SortedMap.mem_of_next hn)
      subst happ
      exact phase_fire false h.phase (fun _ => rfl) rfl rfl rfl hrest hf ((h.phase t).tag_of_record hf)
        (by simp [ApplicationCall.invokes, ApplicationCall.erases]) (fun _ => hr) tag
  by_cases hrec : ∃ m, c = .base (.receive m)
  · obtain ⟨m, rfl⟩ := hrec
    have hrest := h.erases_rest rfl
    obtain ⟨happ, ⟨-, rfl⟩ | ⟨r, hf, rfl⟩⟩ := BaseApplication.receive_cases he
    · rw [course_same (show app'.callbacks.find? tag = app.callbacks.find? tag by rw [happ]) (by simp)
        (by simp [ApplicationCall.resends]) (by simp [ApplicationCall.erases]) rfl]
      exact h.phase tag
    · subst happ
      exact phase_fire true h.phase (fun _ => rfl) rfl rfl rfl hrest hf rfl (by simp) (by simp) tag
  exact phase_quiet h.phase hlive (fun after hc => hover ⟨after, hc⟩) (fun m hc => hrec ⟨m, hc⟩)
    (fun t hc => herase ⟨t, hc⟩) (fun t hc => hretry ⟨t, hc⟩) (fun m cb mr t hc => hsend ⟨m, cb, mr, t, hc⟩) he tag

/-- A retry is made by the loop over the records, of a record with retries left, and runs next. -/
theorem resends_step (hrest : ∀ x ∈ rest, x.resends = none) (hlive : app.dead = false)
    (he : app.execCall drawn c = some (app', cs)) :
    (∀ x ∈ (cs ++ rest).tail, x.resends = none) ∧ ∀ t rest', cs ++ rest = .base (.attemptRetry t) :: rest' →
      ∃ r, app'.callbacks.find? t = some r ∧ r.needsRetry = true := by
  have hnone : (∀ x ∈ cs, x.resends = none) → (∀ x ∈ (cs ++ rest).tail, x.resends = none) ∧
      ∀ t rest', cs ++ rest = .base (.attemptRetry t) :: rest' → ∃ r, app'.callbacks.find? t = some r ∧ r.needsRetry = true := by
    intro hcs
    have hall : ∀ x ∈ cs ++ rest, x.resends = none := fun x hx => (List.mem_append.1 hx).elim (hcs x) (hrest x)
    refine ⟨fun x hx => hall x (List.mem_of_mem_tail hx), fun t rest' heq => ?_⟩
    cases hall _ (by rw [heq]; exact List.mem_cons_self)
  by_cases hover : ∃ after, c = .base (.overdue after)
  · obtain ⟨after, rfl⟩ := hover
    obtain ⟨rfl, ⟨-, rfl⟩ | ⟨t, r, hn, ⟨-, rfl⟩ | ⟨-, hr, rfl⟩ | ⟨-, -, rfl⟩⟩⟩ := BaseApplication.overdue_cases after he
    · exact hnone (by simp)
    · exact hnone (by simp [ApplicationCall.resends])
    · refine ⟨fun x hx => ?_, fun t' rest' heq => ?_⟩
      · rcases List.mem_cons.1 hx with rfl | hx
        · rfl
        · exact hrest x hx
      · cases heq
        exact ⟨r, SortedMap.find?_eq_some_iff.2 (SortedMap.mem_of_next hn), hr⟩
    · refine hnone (fun x hx => ?_)
      simp only [List.mem_append, List.mem_map, List.mem_pair] at hx
      rcases hx with ⟨fn, -, rfl⟩ | rfl | rfl <;> rfl
  by_cases hrec : ∃ m, c = .base (.receive m)
  · obtain ⟨m, rfl⟩ := hrec
    obtain ⟨-, ⟨-, rfl⟩ | ⟨r, hf, rfl⟩⟩ := BaseApplication.receive_cases he
    · exact hnone (by simp)
    · refine hnone (fun x hx => ?_)
      simp only [List.mem_append, List.mem_map, List.mem_singleton] at hx
      rcases hx with ⟨fn, -, rfl⟩ | rfl <;> rfl
  · exact hnone (fun x hx => (BaseApplication.makes_quiet he hlive (fun after hc => hover ⟨after, hc⟩)
      (fun m hc => hrec ⟨m, hc⟩) x hx).2.2.1)

/-- Only `die` makes a live application dead. -/
theorem dead_of_execCall (he : app.execCall drawn c = some (app', cs)) (h : app'.dead = false) : app.dead = false := by
  cases c with
  | userCode => cases he
  | base b =>
    cases b with
    | callback ok fn m => cases he; exact h
    | die => cases he; cases h
    | _ =>
      cases he
      rwa [BaseApplication.exec_dead (by simp)] at h

theorem live_of_step {m m' : ApplicationConfig A F} {l : ApplicationLabel A F} (hs : Step (applicationProgram A F) m l m')
    (h : m'.state.dead = false) : m.state.dead = false := by
  cases hs with
  | run hw he => exact dead_of_execCall he h
  | event hc => exact h
  | reentry hf hc => exact h
  | leave hf => exact h

/-- An application that lives has lived. -/
theorem live_of_run {ok : ApplicationConfig A F → ApplicationLabel A F → Prop} {m m' : ApplicationConfig A F}
    (hr : Run (applicationProgram A F) ok m m') (h : m'.state.dead = false) : m.state.dead = false := by
  refine hr.invariant (I := fun m' => m'.state.dead = false → m.state.dead = false) id ?_ h
  exact fun _ _ _ _ hI _ hs h => hI (live_of_step hs h)

/-- A callback sends what it likes, and nothing else. -/
theorem eq_send_of_reentry (hc : (applicationProgram A F).reentry c = true) : ∃ m cb mr t, c = .base (.send m cb mr t) := by
  cases c with
  | userCode => cases hc
  | base b =>
    cases b with
    | send m cb mr t => exact ⟨m, cb, mr, t, rfl⟩
    | _ => cases hc

/-- Every step of a run with distinct tags keeps the courses of the tags, as long as the application lives. -/
theorem courses_of_run {address : A} {m : ApplicationConfig A F}
    (h : Run (applicationProgram A F) (fun m l => distinctTags m l = true) (startApplication F address) m)
    (hlive : m.state.dead = false) : Courses m := by
  have hstart : Courses (startApplication F address) := by
    refine ⟨List.Pairwise.nil, by simp [startApplication], by simp [startApplication], fun tag => ?_⟩
    exact Phase.unused
  have houter : ∀ c : ApplicationCall A F, c.isEvent = true → c.resends = none ∧ c.erases = none ∧
      (∀ tag, c.invokes tag = []) := by
    intro c hc
    cases c with
    | userCode => cases hc
    | base b =>
      cases b with
      | attemptRetry t => cases hc
      | erase t => cases hc
      | callback ok fn m => cases hc
      | _ => exact ⟨rfl, rfl, fun _ => rfl⟩
  have hcourse : ∀ (tag : Tag) (c : ApplicationCall A F) (s : BaseApplication A F) (stack : List (ApplicationCall A F))
      (tr : ApplicationTrace A F), c.erases = none → c.invokes tag = [] →
      course tag ⟨s, c :: stack, tr⟩ = course tag ⟨s, stack, tr⟩ := by
    intro tag c s stack tr h1 h2
    simp [course, h1, h2]
  refine h.invariant (I := fun m => m.state.dead = false → Courses m) (fun _ => hstart) ?_ hlive
  intro m l m' _ hI hok hs hlive'
  have hlive := live_of_step hs hlive'
  cases hs with
  | run hw he =>
    have hm := hI hlive
    obtain ⟨h1, h2⟩ := resends_step hm.resends hlive he
    exact ⟨BaseApplication.inOrder_step he hlive hm.inOrder, h1, h2, phase_step hm hlive hok he⟩
  | event hc =>
    obtain ⟨h1, h2, h3⟩ := houter _ hc
    refine ⟨List.pairwise_singleton _ _, by simp, fun t rest heq => ?_, fun tag => ?_⟩
    · cases heq
      cases h1
    · rw [hcourse tag _ _ _ _ h2 (h3 tag)]
      exact (hI hlive').phase tag
  | @reentry c f rest s tr hf hc =>
    obtain ⟨msg, cb, mr, t, rfl⟩ := eq_send_of_reentry hc
    have hm := hI hlive'
    have hf' : f.resends = none := by
      cases f with
      | userCode => rfl
      | base b => cases hf
    refine ⟨List.pairwise_cons.2 ⟨fun y _ hout => Bool.noConfusion hout, hm.inOrder⟩, fun x hx => ?_, nofun, fun tag => ?_⟩
    · rcases List.mem_cons.1 hx with rfl | hx
      · exact hf'
      · exact hm.resends x hx
    · rw [hcourse tag _ _ _ _ rfl rfl]
      exact hm.phase tag
  | @leave f rest s tr hf =>
    have hm := hI hlive'
    have hf' : f = .userCode := by
      cases f with
      | userCode => rfl
      | base b => cases hf
    subst hf'
    refine ⟨(List.pairwise_cons.1 hm.inOrder).2, fun x hx => hm.resends x (List.mem_of_mem_tail hx), ?_, fun tag => ?_⟩
    · intro t rest' heq
      have hrest : ∀ x ∈ rest, x.resends = none := hm.resends
      cases hrest (.base (.attemptRetry t)) (by rw [show rest = _ from heq]; exact List.mem_cons_self)
    · rw [← hcourse tag .userCode s rest tr rfl rfl]
      exact hm.phase tag

end Phases

end Dhtsim
