import Dhtsim.Lemmas.Discipline

/-!
# The scan for overdue records

The last loop of `tick` goes through the records in the order of their tags, and the callbacks of a record that has failed may
insert others before and behind it. A record that is there when the loop starts, or is inserted with a time to send that is yet
to come, is dealt with once: `deal` says how.
-/

namespace Dhtsim

open CallMachine

section Scanning

variable {A F : Type}

/-- What the scan makes of a record at a time: it leaves it, sends its message again, or ends it. -/
def deal (now : Time) (r : SentMessage A F) : Option (SentMessage A F) :=
  if r.nextSend ≤ now then (if r.needsRetry then some (r.retry now) else none) else some r

/-- The calls that run while the callbacks of a record do. -/
def ApplicationCall.isInner : ApplicationCall A F → Bool
  | .base (.send _ _ _ _) => true
  | .base (.callback _ _ _) => true
  | .userCode => true
  | _ => false

/-- Where the scan is: about to look for the next record, about to send one's message again, running one's callbacks, or past
the last one. -/
inductive ScanPoint (A F : Type) where
  | looking (after : Option Tag)
  | retrying (tag : Tag)
  | failing (tag : Tag) (inner : List (ApplicationCall A F))
  | past

namespace ScanPoint

/-- The stack of a scan. -/
def stack : ScanPoint A F → List (ApplicationCall A F)
  | looking after => [.base (.overdue after)]
  | retrying tag => [.base (.attemptRetry tag), .base (.overdue (some tag))]
  | failing tag inner => inner ++ [.base (.erase tag), .base (.overdue (some tag))]
  | past => []

/-- The scan has still to deal with a tag. -/
def Ahead (tag : Tag) : ScanPoint A F → Prop
  | looking after => ∀ t, after = some t → t < tag
  | retrying t => t ≤ tag
  | failing t _ => t ≤ tag
  | past => False

/-- The scan has begun to deal with a tag, or is past it. -/
def Begun (tag : Tag) : ScanPoint A F → Prop
  | looking after => ¬∀ t, after = some t → t < tag
  | retrying t => tag < t
  | failing t _ => tag ≤ t
  | past => True

/-- The record that the scan deals with is overdue, and its retries are used up or not. -/
def Fits (now : Time) (app : BaseApplication A F) : ScanPoint A F → Prop
  | looking _ => True
  | retrying tag => ∃ r, app.callbacks.find? tag = some r ∧ r.nextSend ≤ now ∧ r.needsRetry = true
  | failing tag inner => (∃ r, app.callbacks.find? tag = some r ∧ r.nextSend ≤ now ∧ r.needsRetry = false) ∧
      ∀ x ∈ inner, x.isInner = true
  | past => True

end ScanPoint

/-- The scan is at a point. -/
structure ScansAt (now : Time) (pt : ScanPoint A F) (m : ApplicationConfig A F) : Prop where
  stack : m.stack = pt.stack
  epoch : m.state.epoch = now
  fits : pt.Fits now m.state

/-- A record is what it was, or what the scan has made of it; if it has failed, its failure callbacks are those that run. -/
structure Tracked (now : Time) (pt : ScanPoint A F) (tag : Tag) (r : SentMessage A F) (m : ApplicationConfig A F) : Prop where
  ahead : pt.Ahead tag → m.state.callbacks.find? tag = some r
  behind : ¬pt.Ahead tag → m.state.callbacks.find? tag = deal now r
  used : tag ∈ (given m.trace).map (·.message.tag)
  failed : pt.Begun tag → deal now r = none → (course tag m).outcome = r.callback.failureFns.map (false, ·)

variable {now : Time} {drawn : Tag} {app app' : BaseApplication A F} {c : ApplicationCall A F}
  {cs rest inner : List (ApplicationCall A F)} {tr : ApplicationTrace A F} {after : Option Tag} {t tag : Tag}
  {r : SentMessage A F}

/-- A tag that was used stays so. -/
theorem used_cons (h : tag ∈ (given tr).map (·.message.tag)) : tag ∈ (given ((c, drawn) :: tr)).map (·.message.tag) := by
  rw [given_cons, List.map_append]
  exact List.mem_append_right _ h

/-- A step that puts no callback of a tag on the stack leaves the functions that ran for it or are about to. -/
theorem outcome_run (h : ∀ x ∈ cs, x.invokes tag = []) :
    (course tag ⟨app', cs ++ rest, (c, drawn) :: tr⟩).outcome = (course tag ⟨app, c :: rest, tr⟩).outcome := by
  have hnil : cs.flatMap (·.invokes tag) = [] := List.flatMap_eq_nil_iff.2 h
  rw [course_run (by rw [hnil]; simp), hnil]
  rfl

theorem outcome_cons {stack : List (ApplicationCall A F)} (h : c.invokes tag = []) :
    (course tag ⟨app, c :: stack, tr⟩).outcome = (course tag ⟨app, stack, tr⟩).outcome := by
  simp [course, h]

/-- When the loop runs the callbacks of a record, these are the ones that run for its tag. -/
theorem outcome_fire (hm : Courses ⟨app, [.base (.overdue after)], tr⟩) (hf : app.callbacks.find? t = some r)
    {more : List (ApplicationCall A F)} (hmore : ∀ x ∈ more, x.invokes t = []) :
    (course t ⟨app, (r.callback.failureFns.map (fun fn => .base (.callback false fn r.message)) ++ more) ++ [],
      (.base (.overdue after), drawn) :: tr⟩).outcome = r.callback.failureFns.map (false, ·) := by
  obtain ⟨s, k, hq, -, -⟩ := (hm.phase t).waiting_of_record hf rfl
  have hinvoked : invoked t tr = [] := (List.append_eq_nil_iff.1 (congrArg Course.outcome hq)).1
  have hcallbacks : (r.callback.failureFns.map (fun fn => (.base (.callback false fn r.message) : ApplicationCall A F))).flatMap
      (·.invokes t) = r.callback.failureFns.map (false, ·) := by
    rw [List.flatMap_map, List.map_eq_flatMap]
    exact List.flatMap_congr (fun fn _ => by simp [ApplicationCall.invokes, (hm.phase t).tag_of_record hf])
  have hnil : more.flatMap (·.invokes t) = [] := List.flatMap_eq_nil_iff.2 hmore
  rw [course_run (by simp [ApplicationCall.invokes])]
  simp only [hinvoked, List.flatMap_append, hcallbacks, hnil, List.flatMap_cons, List.flatMap_nil, List.append_nil,
    List.nil_append]
  simp [ApplicationCall.invokes]

/-- The loop looks for the next record. -/
theorem scan_looking (hm : Courses ⟨app, c :: rest, tr⟩) (hpt : ScansAt now (.looking after) ⟨app, c :: rest, tr⟩)
    (he : app.execCall drawn c = some (app', cs)) :
    ∃ pt, ScansAt now pt ⟨app', cs ++ rest, (c, drawn) :: tr⟩ ∧
      ∀ tag r, Tracked now (.looking after) tag r ⟨app, c :: rest, tr⟩ →
        Tracked now pt tag r ⟨app', cs ++ rest, (c, drawn) :: tr⟩ := by
  obtain ⟨rfl, rfl⟩ := List.cons_eq_cons.1 hpt.stack
  have hepoch : app.epoch = now := hpt.epoch
  obtain ⟨happ, hcs⟩ := BaseApplication.overdue_cases after he
  subst happ
  rcases hcs with ⟨hn, rfl⟩ | ⟨t, r', hn, hcs⟩
  · -- no record is left
    refine ⟨.past, ⟨rfl, hepoch, trivial⟩, fun tag r h => ?_⟩
    have hbehind : ¬(ScanPoint.looking after : ScanPoint A F).Ahead tag := fun hahead =>
      SortedMap.not_mem_of_next hn hahead (SortedMap.find?_eq_some_iff.1 (h.ahead hahead))
    exact ⟨False.elim, fun _ => h.behind hbehind, used_cons h.used, fun _ hd =>
      (outcome_run (by simp)).trans (h.failed hbehind hd)⟩
  have hf : app'.callbacks.find? t = some r' := SortedMap.find?_eq_some_iff.2 (SortedMap.mem_of_next hn)
  -- the records up to the next one have been dealt with
  have hmove : ∀ tag r, Tracked now (.looking after) tag r ⟨app', [.base (.overdue after)], tr⟩ →
      (t ≤ tag ∧ app'.callbacks.find? tag = some r) ∨
        (tag < t ∧ app'.callbacks.find? tag = deal now r ∧ ¬∀ a, after = some a → a < tag) := by
    intro tag r h
    by_cases hahead : ∀ a, after = some a → a < tag
    · have hmem := h.ahead hahead
      exact Or.inl ⟨SortedMap.le_of_next hn (SortedMap.find?_eq_some_iff.1 hmem) hahead, hmem⟩
    · refine Or.inr ⟨?_, h.behind hahead, hahead⟩
      push Not at hahead
      obtain ⟨a, rfl, ha⟩ := hahead
      exact lt_of_le_of_lt ha (SortedMap.lt_of_next hn)
  rw [hepoch] at hcs
  rcases hcs with ⟨hdue, rfl⟩ | ⟨hdue, hr, rfl⟩ | ⟨hdue, hr, rfl⟩
  · refine ⟨.looking (some t), ⟨rfl, hepoch, trivial⟩, fun tag r h => ?_⟩
    rcases hmove tag r h with ⟨hle, hmem⟩ | ⟨hlt, hdeal, hbegun⟩
    · rcases lt_or_eq_of_le hle with hlt | rfl
      · have hahead : ∀ a, some t = some a → a < tag := fun a ha => by cases ha; exact hlt
        exact ⟨fun _ => hmem, fun hbehind => absurd hahead hbehind, used_cons h.used, fun hbegun => absurd hahead hbegun⟩
      · obtain rfl : r' = r := Option.some.inj (hf.symm.trans hmem)
        have hdeal : deal now r' = some r' := if_neg hdue
        refine ⟨fun _ => hmem, fun _ => hmem.trans hdeal.symm, used_cons h.used, fun _ hd => ?_⟩
        rw [hdeal] at hd
        cases hd
    · exact ⟨fun hahead => absurd (hahead t rfl) (not_lt.2 (le_of_lt hlt)), fun _ => hdeal, used_cons h.used,
        fun _ hd => (outcome_run (by simp [ApplicationCall.invokes])).trans (h.failed hbegun hd)⟩
  · refine ⟨.retrying t, ⟨rfl, hepoch, ⟨r', hf, hdue, hr⟩⟩, fun tag r h => ?_⟩
    rcases hmove tag r h with ⟨hle, hmem⟩ | ⟨hlt, hdeal, hbegun⟩
    · exact ⟨fun _ => hmem, fun hbehind => absurd hle hbehind, used_cons h.used, fun hbegun => absurd hle (not_le.2 hbegun)⟩
    · exact ⟨fun hahead => absurd hahead (not_le.2 hlt), fun _ => hdeal, used_cons h.used,
        fun _ hd => (outcome_run (by simp [ApplicationCall.invokes])).trans (h.failed hbegun hd)⟩
  · refine ⟨.failing t (r'.callback.failureFns.map (fun fn => .base (.callback false fn r'.message))),
      ⟨by simp [ScanPoint.stack], hepoch, ⟨⟨r', hf, hdue, hr⟩, ?_⟩⟩, fun tag r h => ?_⟩
    · intro x hx
      obtain ⟨fn, -, rfl⟩ := List.mem_map.1 hx
      rfl
    · rcases hmove tag r h with ⟨hle, hmem⟩ | ⟨hlt, hdeal, hbegun⟩
      · refine ⟨fun _ => hmem, fun hbehind => absurd hle hbehind, used_cons h.used, fun hbegun _ => ?_⟩
        obtain rfl := le_antisymm hle hbegun
        cases hf.symm.trans hmem
        exact outcome_fire hm hf (by simp [ApplicationCall.invokes])
      · refine ⟨fun hahead => absurd hahead (not_le.2 hlt), fun _ => hdeal, used_cons h.used, fun _ hd => ?_⟩
        refine (outcome_run (fun x hx => ?_)).trans (h.failed hbegun hd)
        simp only [List.mem_append, List.mem_map, List.mem_pair] at hx
        rcases hx with ⟨fn, -, rfl⟩ | rfl | rfl
        · exact if_neg (by rw [(hm.phase t).tag_of_record hf]; exact ne_of_gt hlt)
        · rfl
        · rfl

/-- A record of a tag was dealt with: the others are what they were. -/
theorem tracked_dealt {pt : ScanPoint A F} {stack stack' : List (ApplicationCall A F)} {tr' : ApplicationTrace A F}
    (hahead : ∀ tag, pt.Ahead tag ↔ t ≤ tag) (hothers : ∀ tag, tag ≠ t → app'.callbacks.find? tag = app.callbacks.find? tag)
    (hdeal : ∀ r, app.callbacks.find? t = some r → app'.callbacks.find? t = deal now r)
    (hused : ∀ tag, tag ∈ (given tr).map (·.message.tag) → tag ∈ (given tr').map (·.message.tag))
    (hbegun : ∀ tag r, tag ≤ t → (tag = t → app.callbacks.find? t = some r) → deal now r = none → pt.Begun tag)
    (houtcome : ∀ tag, (course tag ⟨app', stack', tr'⟩).outcome = (course tag ⟨app, stack, tr⟩).outcome)
    (h : Tracked now pt tag r ⟨app, stack, tr⟩) : Tracked now (.looking (some t)) tag r ⟨app', stack', tr'⟩ := by
  have hmem : tag = t → app.callbacks.find? t = some r := by
    rintro rfl
    exact h.ahead ((hahead tag).2 (le_refl _))
  have hfailed : (ScanPoint.looking (some t) : ScanPoint A F).Begun tag → deal now r = none →
      (course tag ⟨app', stack', tr'⟩).outcome = r.callback.failureFns.map (false, ·) := by
    intro hnow hd
    have hle : tag ≤ t := by
      by_contra hlt
      exact hnow (fun a ha => by cases ha; exact not_le.1 hlt)
    exact (houtcome tag).trans (h.failed (hbegun tag r hle hmem hd) hd)
  by_cases htag : tag = t
  · subst htag
    exact ⟨fun hnow => absurd (hnow tag rfl) (lt_irrefl _), fun _ => hdeal r (hmem rfl), hused _ h.used, hfailed⟩
  · refine ⟨fun hnow => ?_, fun hbehind => ?_, hused _ h.used, hfailed⟩
    · exact (hothers tag htag).trans (h.ahead ((hahead tag).2 (le_of_lt (hnow t rfl))))
    · refine (hothers tag htag).trans (h.behind (fun hle => hbehind (fun a ha => ?_)))
      cases ha
      exact lt_of_le_of_ne ((hahead tag).1 hle) (Ne.symm htag)

/-- The loop sends a message again. -/
theorem scan_retrying (hpt : ScansAt now (.retrying t) ⟨app, c :: rest, tr⟩) (he : app.execCall drawn c = some (app', cs)) :
    ScansAt now (.looking (some t)) ⟨app', cs ++ rest, (c, drawn) :: tr⟩ ∧
      ∀ tag r, Tracked now (.retrying t) tag r ⟨app, c :: rest, tr⟩ →
        Tracked now (.looking (some t)) tag r ⟨app', cs ++ rest, (c, drawn) :: tr⟩ := by
  obtain ⟨rfl, rfl⟩ := List.cons_eq_cons.1 hpt.stack
  have hepoch : app.epoch = now := hpt.epoch
  obtain ⟨r', hf, hdue, hr⟩ := hpt.fits
  have hf : app.callbacks.find? t = some r' := hf
  simp only [BaseApplication.execCall, BaseApplication.exec, Option.some.injEq, Prod.mk.injEq, List.map_nil] at he
  obtain ⟨rfl, rfl⟩ := he
  have hcallbacks : (BaseApplication.attemptRetry drawn t app).callbacks = app.callbacks.insert t (r'.retry now) := by
    have hsend : (app.send drawn r'.message .empty 16 0).1.epoch = now := by rw [BaseApplication.send_eq, ← hepoch]
    simp only [BaseApplication.attemptRetry, hf, BaseApplication.send_empty_callbacks, hsend]
  refine ⟨⟨rfl, ?_, trivial⟩, fun tag r h => tracked_dealt (fun _ => Iff.rfl) ?_ ?_ (fun _ => used_cons) ?_
    (fun tag => outcome_run (by simp)) h⟩
  · rw [BaseApplication.attemptRetry_eq]
    exact hepoch
  · intro tag htag
    rw [hcallbacks, SortedMap.find?_insert_of_ne _ _ htag]
  · intro r hmem
    cases hf.symm.trans hmem
    rw [hcallbacks, SortedMap.find?_insert_self, deal, if_pos hdue, if_pos hr]
  · intro tag r hle hmem hd
    refine lt_of_le_of_ne hle (fun htag => ?_)
    cases hf.symm.trans (hmem htag)
    rw [deal, if_pos hdue, if_pos hr] at hd
    cases hd

/-- The callbacks of a record have run, and it is erased. -/
theorem scan_erase (hpt : ScansAt now (.failing t []) ⟨app, c :: rest, tr⟩) (he : app.execCall drawn c = some (app', cs)) :
    ScansAt now (.looking (some t)) ⟨app', cs ++ rest, (c, drawn) :: tr⟩ ∧
      ∀ tag r, Tracked now (.failing t []) tag r ⟨app, c :: rest, tr⟩ →
        Tracked now (.looking (some t)) tag r ⟨app', cs ++ rest, (c, drawn) :: tr⟩ := by
  obtain ⟨rfl, rfl⟩ := List.cons_eq_cons.1 hpt.stack
  have hepoch : app.epoch = now := hpt.epoch
  obtain ⟨⟨r', hf, hdue, hr⟩, -⟩ := hpt.fits
  have hf : app.callbacks.find? t = some r' := hf
  cases he
  refine ⟨⟨rfl, hepoch, trivial⟩, fun tag r h => tracked_dealt (fun _ => Iff.rfl) ?_ ?_ (fun _ => used_cons)
    ?_ (fun tag => outcome_run (by simp [BaseApplication.exec])) h⟩
  · exact fun tag htag => SortedMap.find?_erase_of_ne _ htag
  · intro r hmem
    cases hf.symm.trans hmem
    rw [deal, if_pos hdue, if_neg (by simp [hr])]
    exact SortedMap.find?_erase_self _ _
  · exact fun tag r hle _ _ => hle

/-- The tag of a record was used. -/
theorem used_of_record {m : ApplicationConfig A F} (h : Courses m) (hf : m.state.callbacks.find? tag = some r) :
    tag ∈ (given m.trace).map (·.message.tag) := by
  have hp := h.phase tag
  have hne : (course tag m).given ≠ [] := by
    intro hg
    have hnone := congrArg Course.record (hp.unused_of_given hg)
    rw [show (course tag m).record = some r from hf] at hnone
    cases hnone
  obtain ⟨s, hs⟩ := List.exists_mem_of_ne_nil _ hne
  obtain ⟨hmem, htag⟩ := List.mem_filter.1 hs
  exact List.mem_map.2 ⟨s, hmem, by simpa using htag⟩

/-- The record that `send` makes for what it is given at a time. -/
def recordOf (now : Time) (s : Sent A F) (timeout : UInt64) : SentMessage A F :=
  SentMessage.new s.message s.callback now (if timeout = 0 then defaultTimeout else timeout) s.maxRetries

/-- What a step of a scan does to the records: those that were there are what they were or were dealt with, and one that is
inserted with a time to send that is yet to come will stay. -/
structure Goes (now : Time) (pt pt' : ScanPoint A F) (m : ApplicationConfig A F) (l : ApplicationLabel A F)
    (m' : ApplicationConfig A F) : Prop where
  scans : ScansAt now pt' m'
  tracked : ∀ tag r, Tracked now pt tag r m → Tracked now pt' tag r m'
  inserted : ∀ drawn msg cb mr timeout rest, l = .run drawn → m.stack = .base (.send msg cb mr timeout) :: rest →
    cb.isEmpty = false → now < (recordOf now ⟨msg.tagged drawn, cb, mr⟩ timeout).nextSend →
    Tracked now pt' (msg.tagged drawn).tag (recordOf now ⟨msg.tagged drawn, cb, mr⟩ timeout) m'

/-- A callback runs, or sends. -/
theorem scan_inner (hm : Courses ⟨app, c :: rest, tr⟩) (hlive : app.dead = false)
    (hdistinct : distinctTags ⟨app, c :: rest, tr⟩ (.run drawn) = true) {x : ApplicationCall A F}
    (hpt : ScansAt now (.failing t (x :: inner)) ⟨app, c :: rest, tr⟩) (he : app.execCall drawn c = some (app', cs)) :
    ∃ pt, Goes now (.failing t (x :: inner)) pt ⟨app, c :: rest, tr⟩ (.run drawn) ⟨app', cs ++ rest, (c, drawn) :: tr⟩ := by
  obtain ⟨hc, hrest⟩ := List.cons_eq_cons.1 hpt.stack
  have hrest : rest = inner ++ [.base (.erase t), .base (.overdue (some t))] := hrest
  have hepoch : app.epoch = now := hpt.epoch
  obtain ⟨⟨r', hf, hdue, hr⟩, hinner⟩ := hpt.fits
  have hx := hinner x List.mem_cons_self
  have hinner' : ∀ y ∈ inner, y.isInner = true := fun y hy => hinner y (List.mem_cons_of_mem _ hy)
  subst hc
  unfold ApplicationCall.isInner at hx
  split at hx
  · rename_i msg cb mr timeout
    obtain ⟨rfl, -⟩ := phase_send hm.phase rfl hlive hdistinct he t
    simp only [BaseApplication.execCall, BaseApplication.exec, BaseApplication.send_of_live hlive, Option.some.injEq,
      Prod.mk.injEq] at he
    obtain ⟨rfl, -⟩ := he
    let new := recordOf now ⟨msg.tagged drawn, cb, mr⟩ timeout
    have hcallbacks : ((app.register (msg.tagged drawn) cb mr (if timeout = 0 then defaultTimeout else timeout)).queueOut
        (msg.tagged drawn)).callbacks =
          if cb.isEmpty then app.callbacks else app.callbacks.insert (msg.tagged drawn).tag new := by
      rw [BaseApplication.queueOut_eq]
      simp only [BaseApplication.register, hepoch]
      split <;> rfl
    have hother : ∀ tag, tag ∈ (given tr).map (·.message.tag) →
        ((app.register (msg.tagged drawn) cb mr (if timeout = 0 then defaultTimeout else timeout)).queueOut
          (msg.tagged drawn)).callbacks.find? tag = app.callbacks.find? tag := by
      intro tag hused
      rw [hcallbacks]
      split_ifs with hcb
      · rfl
      · refine SortedMap.find?_insert_of_ne _ _ ?_
        rintro rfl
        simp only [distinctTags, givenBy, hcb, Bool.false_eq_true, if_false, List.all_cons, List.all_nil, Bool.and_true,
          decide_eq_true_eq] at hdistinct
        exact hdistinct hused
    refine ⟨.failing t inner, ⟨?_, ?_, ⟨r', ?_, hdue, hr⟩, hinner'⟩, fun tag r h => ⟨fun ha => ?_, fun ha => ?_,
      used_cons h.used, fun hb hd => (outcome_run (by simp)).trans (h.failed hb hd)⟩, ?_⟩
    · exact hrest
    · change ((app.register (msg.tagged drawn) cb mr _).queueOut (msg.tagged drawn)).epoch = now
      rw [BaseApplication.queueOut_eq, BaseApplication.register_eq]
      exact hepoch
    · exact (hother t (used_of_record hm hf)).trans hf
    · exact (hother tag h.used).trans (h.ahead ha)
    · exact (hother tag h.used).trans (h.behind ha)
    · intro drawn' msg' cb' mr' timeout' rest' hl heq hcb hlater
      cases hl
      cases heq
      have hfind : ((app.register (msg.tagged drawn) cb mr (if timeout = 0 then defaultTimeout else timeout)).queueOut
          (msg.tagged drawn)).callbacks.find? (msg.tagged drawn).tag = some new := by
        rw [hcallbacks, if_neg (by simp [hcb]), SortedMap.find?_insert_self]
      have hdeal : deal now (recordOf now ⟨msg.tagged drawn, cb, mr⟩ timeout) = some new := if_neg (not_le.2 hlater)
      refine ⟨fun _ => hfind, fun _ => hfind.trans hdeal.symm, by simp [given_cons, givenBy, hcb], fun _ hd => ?_⟩
      rw [hdeal] at hd
      cases hd
  · cases he
    refine ⟨.failing t (.userCode :: inner), ⟨by simp [ScanPoint.stack, hrest], hepoch, ⟨r', hf, hdue, hr⟩, ?_⟩,
      fun tag r h => ⟨h.ahead, h.behind, used_cons h.used, fun hb hd =>
        (outcome_run (by simp [ApplicationCall.invokes])).trans (h.failed hb hd)⟩, ?_⟩
    · intro y hy
      rcases List.mem_cons.1 hy with rfl | hy
      · rfl
      · exact hinner' y hy
    · intro _ _ _ _ _ _ _ heq
      cases heq
  · cases he
  · cases hx

/-- Every step of a scan goes on with it. -/
theorem scan_step {pt : ScanPoint A F} {m m' : ApplicationConfig A F} {l : ApplicationLabel A F} (hm : Courses m)
    (hlive : m.state.dead = false) (hdistinct : distinctTags m l = true) (hpt : ScansAt now pt m) (hne : m.stack ≠ [])
    (hs : Step (applicationProgram A F) m l m') : ∃ pt', Goes now pt pt' m l m' := by
  cases hs with
  | @run drawn c rest app tr app' cs hw he =>
    have hnosend : ∀ pt', ScansAt now pt' ⟨app', cs ++ rest, (c, drawn) :: tr⟩ →
        (∀ tag r, Tracked now pt tag r ⟨app, c :: rest, tr⟩ → Tracked now pt' tag r ⟨app', cs ++ rest, (c, drawn) :: tr⟩) →
        c.isInner = false → Goes now pt pt' ⟨app, c :: rest, tr⟩ (.run drawn) ⟨app', cs ++ rest, (c, drawn) :: tr⟩ := by
      intro pt' h1 h2 hc
      refine ⟨h1, h2, fun _ _ _ _ _ _ _ heq => ?_⟩
      rw [(List.cons_eq_cons.1 heq).1] at hc
      cases hc
    cases pt with
    | looking after =>
      obtain ⟨pt', h1, h2⟩ := scan_looking hm hpt he
      exact ⟨pt', hnosend pt' h1 h2 (by rw [(List.cons_eq_cons.1 hpt.stack).1]; rfl)⟩
    | retrying t =>
      obtain ⟨h1, h2⟩ := scan_retrying hpt he
      exact ⟨_, hnosend _ h1 h2 (by rw [(List.cons_eq_cons.1 hpt.stack).1]; rfl)⟩
    | failing t inner =>
      cases inner with
      | nil =>
        obtain ⟨h1, h2⟩ := scan_erase hpt he
        exact ⟨_, hnosend _ h1 h2 (by rw [(List.cons_eq_cons.1 hpt.stack).1]; rfl)⟩
      | cons x inner => exact scan_inner hm hlive hdistinct hpt he
    | past => cases hpt.stack
  | event hc => exact absurd rfl hne
  | @reentry c f rest app tr hf hc =>
    cases pt with
    | failing t inner =>
      obtain ⟨msg, cb, mr, timeout, rfl⟩ := eq_send_of_reentry hc
      refine ⟨.failing t (.base (.send msg cb mr timeout) :: inner),
        ⟨congrArg (List.cons _) hpt.stack, hpt.epoch, hpt.fits.1, fun y hy => ?_⟩,
        fun tag r h => ⟨h.ahead, h.behind, h.used, fun hb hd => (outcome_cons rfl).trans (h.failed hb hd)⟩, nofun⟩
      rcases List.mem_cons.1 hy with rfl | hy
      · rfl
      · exact hpt.fits.2 y hy
    | past => cases hpt.stack
    | _ =>
      rw [(List.cons_eq_cons.1 hpt.stack).1] at hf
      cases hf
  | @leave f rest app tr hf =>
    cases pt with
    | failing t inner =>
      cases inner with
      | nil =>
        rw [(List.cons_eq_cons.1 hpt.stack).1] at hf
        cases hf
      | cons x inner =>
        have hf' : f = .userCode := by
          cases f with
          | userCode => rfl
          | base b => cases hf
        subst hf'
        exact ⟨.failing t inner, ⟨(List.cons_eq_cons.1 hpt.stack).2, hpt.epoch, hpt.fits.1,
          fun y hy => hpt.fits.2 y (List.mem_cons_of_mem _ hy)⟩,
          fun tag r h => ⟨h.ahead, h.behind, h.used, fun hb hd => (outcome_cons rfl).symm.trans (h.failed hb hd)⟩, nofun⟩
    | past => cases hpt.stack
    | _ =>
      rw [(List.cons_eq_cons.1 hpt.stack).1] at hf
      cases hf

end Scanning

end Dhtsim
