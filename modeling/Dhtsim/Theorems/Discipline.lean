import Dhtsim.Lemmas.Scan

/-!
# Callbacks

A callback set that is given to `send` is answered once: by a message with its tag, or by the loop over the overdue records once
all retries were made. The loop deals once with each record it finds, whatever the callbacks insert meanwhile; only a record
whose time to send lies beyond the last time there is, so that it counts as past, may be dealt with in the loop that it is
inserted in (`callbacks_disciplined_false`).
-/

namespace Dhtsim

open CallMachine

section Statements

variable {A F : Type}

/-- What was given has the one record of its tag, and none of its callbacks ran. -/
structure Waits (s : Sent A F) (m : ApplicationConfig A F) : Prop where
  record : ∃ r, m.state.callbacks.entries.filter (fun e => e.2.message.tag = s.message.tag) = [(s.message.tag, r)] ∧
    r.message = s.message ∧ r.callback = s.callback
  invoked : invoked s.message.tag m.trace = []
  ended : ended s.message.tag m.trace = 0

/-- What was given has no record, as that ended once, and its callbacks for one outcome ran, each once. -/
structure Concluded (s : Sent A F) (ok : Bool) (m : ApplicationConfig A F) : Prop where
  record : m.state.callbacks.entries.filter (fun e => e.2.message.tag = s.message.tag) = []
  invoked : invoked s.message.tag m.trace = (s.callback.fns ok).map (ok, ·)
  ended : ended s.message.tag m.trace = 1

/-- Between two moments a record is sent again once or fails once if it is overdue at the first of them, as its retries left say,
and nothing happens to it if it is not. -/
structure DealtOnce (tag : Tag) (r : SentMessage A F) (m m' : ApplicationConfig A F) : Prop where
  record : m'.state.callbacks.find? tag = deal m.state.epoch r
  retransmitted : retransmitted tag m'.trace =
    retransmitted tag m.trace + if r.nextSend ≤ m.state.epoch ∧ r.needsRetry = true then 1 else 0
  invoked : invoked tag m.trace = [] ∧ invoked tag m'.trace =
    if r.nextSend ≤ m.state.epoch ∧ r.needsRetry = false then r.callback.failureFns.map (false, ·) else []
  ended : ended tag m.trace = 0 ∧
    ended tag m'.trace = if r.nextSend ≤ m.state.epoch ∧ r.needsRetry = false then 1 else 0

/-- A record is as it was inserted, and nothing has happened to it. -/
structure Untouched (tag : Tag) (r : SentMessage A F) (m : ApplicationConfig A F) : Prop where
  record : m.state.callbacks.find? tag = some r
  retransmitted : retransmitted tag m.trace = 0
  invoked : invoked tag m.trace = []
  ended : ended tag m.trace = 0

end Statements

namespace DisciplineAux

variable {A F : Type} {address : A} {m m₁ : ApplicationConfig A F} {tag : Tag} {r : SentMessage A F} {s : Sent A F}

/-- The records whose message has a tag: the one of the tag, if there is one. -/
theorem entries_of_tag (h : Courses m) (tag : Tag) :
    m.state.callbacks.entries.filter (fun e => e.2.message.tag = tag) =
      ((m.state.callbacks.find? tag).map (fun r => (tag, r))).toList := by
  have hkey : ∀ e ∈ m.state.callbacks.entries, e.2.message.tag = e.1 :=
    fun e he => (h.phase e.1).tag_of_record (SortedMap.find?_eq_some_iff.2 he)
  have hfilter : m.state.callbacks.entries.filter (fun e => e.2.message.tag = tag) =
      m.state.callbacks.entries.filter (fun e => e.1 = tag) :=
    List.filter_congr (fun e he => by rw [hkey e he])
  rw [hfilter]
  cases hf : m.state.callbacks.find? tag with
  | none =>
    refine List.filter_eq_nil_iff.2 (fun e he heq => ?_)
    exact SortedMap.find?_eq_none_iff.1 hf e.2 (by simpa [← of_decide_eq_true heq] using he)
  | some r =>
    have hperm := (SortedMap.entries_perm_erase hf).filter (fun e => e.1 = tag)
    have hnil : (m.state.callbacks.erase tag).entries.filter (fun e => e.1 = tag) = [] := by
      simp [SortedMap.erase, SortedMap.filter]
    rw [List.filter_cons_of_pos (by simp), hnil] at hperm
    exact List.perm_singleton.1 hperm

/-- What is given has something to call. -/
theorem isEmpty_of_given {tr : ApplicationTrace A F} (h : s ∈ given tr) : s.callback.isEmpty = false := by
  obtain ⟨e, -, hs⟩ := List.mem_flatMap.1 h
  unfold givenBy at hs
  split at hs
  · split_ifs at hs with hcb
    · cases hs
    · rw [List.mem_singleton.1 hs]
      simpa using hcb
  · cases hs

/-- What a record waits for, when nothing runs. -/
theorem waits_of_record (h : Courses m) (hstack : m.stack.flatMap (·.invokes tag) = [] ∧ m.stack.countP (·.erases = some tag) = 0)
    (hf : m.state.callbacks.find? tag = some r) :
    ∃ s k, (given m.trace).filter (·.message.tag = tag) = [s] ∧ IsRecordOf r s k ∧ retransmitted tag m.trace = k ∧
      invoked tag m.trace = [] ∧ ended tag m.trace = 0 := by
  obtain ⟨s, k, hq, -, hrec⟩ := (h.phase tag).waiting_of_record hf hstack.2
  simp only [course, Course.mk.injEq, hstack.1, List.append_nil] at hq
  obtain ⟨-, hinvoked, -, hretr, hended, hg⟩ := hq
  exact ⟨s, k, hg, hrec, hretr, hinvoked, hended⟩

/-- What was given and has no record was answered, when nothing runs. -/
theorem settled_of_none (h : Courses m) (hidle : m.stack = []) (hf : m.state.callbacks.find? tag = none)
    (hused : tag ∈ (given m.trace).map (·.message.tag)) :
    ∃ s ok, (given m.trace).filter (·.message.tag = tag) = [s] ∧ invoked tag m.trace = (s.callback.fns ok).map (ok, ·) ∧
      ended tag m.trace = 1 ∧ (ok = false → retransmitted tag m.trace = s.maxRetries.toNat) := by
  have hp := h.phase tag
  generalize hq : course tag m = q at hp
  have hrecord := congrArg Course.record hq
  rw [show (course tag m).record = none from hf] at hrecord
  cases hp with
  | unused =>
    obtain ⟨s, hs, htag⟩ := List.mem_map.1 hused
    have hmem : s ∈ (course tag m).given := List.mem_filter.2 ⟨hs, by simpa using htag⟩
    rw [hq] at hmem
    cases hmem
  | waiting hs hrec => cases hrecord
  | ending ok hs hrec hk => cases hrecord
  | settled ok hs hk =>
    simp only [course, Course.mk.injEq, hidle, List.flatMap_nil, List.append_nil] at hq
    obtain ⟨-, hinvoked, -, hretr, hended, hg⟩ := hq
    exact ⟨_, ok, hg, hinvoked, hended, fun hfail => hretr.trans (hk hfail)⟩

/-- Between events what was given waits, or was answered. -/
theorem waits_or_settled (h : Courses m) (hidle : m.stack = []) (hs : s ∈ given m.trace) :
    Waits s m ∨ ∃ ok, Concluded s ok m ∧ (ok = false → retransmitted s.message.tag m.trace = s.maxRetries.toNat) := by
  have hmem : s ∈ (given m.trace).filter (·.message.tag = s.message.tag) := List.mem_filter.2 ⟨hs, by simp⟩
  have hentries := entries_of_tag h s.message.tag
  cases hf : m.state.callbacks.find? s.message.tag with
  | some r =>
    obtain ⟨s', k, hg, hrec, -, hinvoked, hended⟩ := waits_of_record h (by simp [hidle]) hf
    rw [hg, List.mem_singleton] at hmem
    rw [hf] at hentries
    exact Or.inl ⟨⟨r, hentries, hmem ▸ hrec.message, hmem ▸ hrec.callback⟩, hinvoked, hended⟩
  | none =>
    obtain ⟨s', ok, hg, hinvoked, hended, hk⟩ := settled_of_none h hidle hf (List.mem_map_of_mem hs)
    rw [hg, List.mem_singleton] at hmem
    rw [hf] at hentries
    subst hmem
    exact Or.inr ⟨ok, ⟨hentries, hinvoked, hended⟩, hk⟩

/-- In the scan that starts at `m₁`, each record it finds is tracked, and so is each one inserted with a time to send that is yet to
come. -/
theorem scan_of_run (h₁ : Run (applicationProgram A F) (fun m l => distinctTags m l = true) (startApplication F address) m₁)
    (hstack : m₁.stack = [.base (.overdue none)])
    (h : Run (applicationProgram A F) (fun m l => distinctTags m l = true ∧ m.stack ≠ []) m₁ m) (hlive : m.state.dead = false) :
    ∃ pt seg, ScansAt m₁.state.epoch pt m ∧ m.trace = seg ++ m₁.trace ∧
      (∀ tag r, m₁.state.callbacks.find? tag = some r → Tracked m₁.state.epoch pt tag r m) ∧
      ∀ drawn msg cb mr timeout, (.base (.send msg cb mr timeout), drawn) ∈ seg → cb.isEmpty = false →
        m₁.state.epoch < (recordOf m₁.state.epoch ⟨msg.tagged drawn, cb, mr⟩ timeout).nextSend →
        Tracked m₁.state.epoch pt (msg.tagged drawn).tag (recordOf m₁.state.epoch ⟨msg.tagged drawn, cb, mr⟩ timeout) m := by
  refine h.invariant (I := fun m => m.state.dead = false → ∃ pt seg, ScansAt m₁.state.epoch pt m ∧ m.trace = seg ++ m₁.trace ∧
    (∀ tag r, m₁.state.callbacks.find? tag = some r → Tracked m₁.state.epoch pt tag r m) ∧
    ∀ drawn msg cb mr timeout, (.base (.send msg cb mr timeout), drawn) ∈ seg → cb.isEmpty = false →
      m₁.state.epoch < (recordOf m₁.state.epoch ⟨msg.tagged drawn, cb, mr⟩ timeout).nextSend →
      Tracked m₁.state.epoch pt (msg.tagged drawn).tag (recordOf m₁.state.epoch ⟨msg.tagged drawn, cb, mr⟩ timeout) m)
    (fun hlive => ?_) ?_ hlive
  · have hm₁ := courses_of_run h₁ hlive
    refine ⟨.looking none, [], ⟨hstack, rfl, trivial⟩, rfl, fun tag r hf => ?_, by simp⟩
    exact ⟨fun _ => hf, fun hbehind => absurd nofun hbehind, used_of_record hm₁ hf, fun hbegun => absurd nofun hbegun⟩
  · intro m l m' hr hI hok hs hlive'
    have hlive := live_of_step hs hlive'
    obtain ⟨pt, seg, hpt, hseg, hold, hnew⟩ := hI hlive
    have hm := courses_of_run (h₁.trans (hr.mono (fun _ _ h => h.1))) hlive
    obtain ⟨pt', hgoes⟩ := scan_step hm hlive hok.1 hpt hok.2 hs
    cases hs with
    | @run drawn c rest app tr app' cs hw he =>
      refine ⟨pt', (c, drawn) :: seg, hgoes.scans, congrArg (_ :: ·) hseg, fun tag r hf => hgoes.tracked _ _ (hold tag r hf), ?_⟩
      intro drawn' msg cb mr timeout hmem hcb hlater
      rcases List.mem_cons.1 hmem with heq | hmem
      · cases heq
        exact hgoes.inserted drawn msg cb mr timeout rest rfl rfl hcb hlater
      · exact hgoes.tracked _ _ (hnew drawn' msg cb mr timeout hmem hcb hlater)
    | event hc => exact absurd rfl hok.2
    | reentry hf hc =>
      exact ⟨pt', seg, hgoes.scans, hseg, fun tag r hf => hgoes.tracked _ _ (hold tag r hf),
        fun drawn msg cb mr timeout hmem hcb hlater => hgoes.tracked _ _ (hnew drawn msg cb mr timeout hmem hcb hlater)⟩
    | leave hf =>
      exact ⟨pt', seg, hgoes.scans, hseg, fun tag r hf => hgoes.tracked _ _ (hold tag r hf),
        fun drawn msg cb mr timeout hmem hcb hlater => hgoes.tracked _ _ (hnew drawn msg cb mr timeout hmem hcb hlater)⟩

/-- A record that a scan found was dealt with once when the scan is over. -/
theorem dealtOnce_of_tracked (h₁ : Courses m₁) (hstack : m₁.stack = [.base (.overdue none)]) (h : Courses m)
    (hidle : m.stack = []) (htrace : m₁.trace <:+ m.trace) (hf : m₁.state.callbacks.find? tag = some r)
    (ht : Tracked m₁.state.epoch .past tag r m) : DealtOnce tag r m₁ m := by
  obtain ⟨s, k, hg, hrec, hretr, hinvoked, hended⟩ :=
    waits_of_record h₁ (by simp [hstack, ApplicationCall.invokes, ApplicationCall.erases]) hf
  have hrecord : m.state.callbacks.find? tag = deal m₁.state.epoch r := ht.behind id
  have hidle' : m.stack.flatMap (·.invokes tag) = [] ∧ m.stack.countP (·.erases = some tag) = 0 := by simp [hidle]
  by_cases hdue : r.nextSend ≤ m₁.state.epoch
  · cases hr : r.needsRetry with
    | true =>
      have hdeal : deal m₁.state.epoch r = some (r.retry m₁.state.epoch) := by simp [deal, hdue, hr]
      obtain ⟨_, k', -, hrec', hretr', hinvoked', hended'⟩ := waits_of_record h hidle' (hrecord.trans hdeal)
      have hk : k' = k + 1 := by
        have hbound := s.maxRetries.toNat_lt
        have hle := hrec.le
        rw [← hrec'.retries, ← hrec.retries]
        change (r.retries + 1).toNat = _
        rw [UInt64.toNat_add]
        refine Nat.mod_eq_of_lt ?_
        rw [hrec.retries]
        simp
        omega
      exact ⟨hrecord, by rw [hretr', hretr, hk]; simp [hdue, hr], ⟨hinvoked, by simp [hinvoked', hr]⟩,
        hended, by simp [hended', hr]⟩
    | false =>
      have hdeal : deal m₁.state.epoch r = none := by simp [deal, hdue, hr]
      obtain ⟨s', ok, hg', hinvoked', hended', hk⟩ := settled_of_none h hidle (hrecord.trans hdeal) ht.used
      have hout : invoked tag m.trace = r.callback.failureFns.map (false, ·) := by
        have hout := ht.failed trivial hdeal
        simpa [course, hidle] using hout
      obtain ⟨seg, hseg⟩ := htrace
      have hs : s' = s := by
        have hmem : s ∈ (given m.trace).filter (·.message.tag = tag) := by
          have hmem : s ∈ (given m₁.trace).filter (·.message.tag = tag) := by simp [hg]
          rw [← hseg, given, List.flatMap_append, List.filter_append]
          exact List.mem_append_right _ hmem
        rw [hg', List.mem_singleton] at hmem
        exact hmem.symm
      subst hs
      have hok : ok = false := by
        -- callbacks ran, as something was given to call
        have hgiven : s' ∈ given m.trace := by
          have hmem : s' ∈ (given m.trace).filter (·.message.tag = tag) := by simp [hg']
          exact (List.mem_filter.1 hmem).1
        have hne := isEmpty_of_given hgiven
        cases ok with
        | false => rfl
        | true =>
          rw [hinvoked', hrec.callback] at hout
          exfalso
          cases hsucc : s'.callback.successFns with
          | nil =>
            cases hfail : s'.callback.failureFns with
            | nil => simp [CallbackSet.isEmpty, hsucc, hfail] at hne
            | cons fn l => simp [CallbackSet.fns, hsucc, hfail] at hout
          | cons fn l =>
            cases hfail : s'.callback.failureFns with
            | nil => simp [CallbackSet.fns, hsucc, hfail] at hout
            | cons fn' l' => simp [CallbackSet.fns, hsucc, hfail] at hout
      have hmax : k = s'.maxRetries.toNat := by
        have hle : r.maxRetries ≤ r.retries := by simpa [SentMessage.needsRetry] using hr
        have hle' := UInt64.le_iff_toNat_le.1 hle
        have h1 := hrec.le
        rw [hrec.maxRetries, hrec.retries] at hle'
        omega
      exact ⟨hrecord, by rw [hk hok, hretr, hmax]; simp [hr], ⟨hinvoked, by simp [hout, hdue, hr]⟩,
        hended, by simp [hended', hdue, hr]⟩
  · have hdeal : deal m₁.state.epoch r = some r := if_neg hdue
    obtain ⟨_, k', -, hrec', hretr', hinvoked', hended'⟩ := waits_of_record h hidle' (hrecord.trans hdeal)
    have hk : k' = k := by rw [← hrec'.retries, hrec.retries]
    exact ⟨hrecord, by rw [hretr', hretr, hk]; simp [hdue], ⟨hinvoked, by simp [hinvoked', hdue]⟩,
      hended, by simp [hended', hdue]⟩

/-- A record that was inserted with a time to send that is yet to come is untouched when the scan is over. -/
theorem untouched_of_tracked {now : Time} (h : Courses m) (hidle : m.stack = []) {timeout : UInt64}
    (hlater : now < (recordOf now s timeout).nextSend) (ht : Tracked now .past tag (recordOf now s timeout) m) :
    Untouched tag (recordOf now s timeout) m := by
  have hdeal : deal now (recordOf now s timeout) = some (recordOf now s timeout) := if_neg (not_le.2 hlater)
  have hf := (ht.behind id).trans hdeal
  obtain ⟨_, k, -, hrec, hretr, hinvoked, hended⟩ := waits_of_record h (by simp [hidle]) hf
  refine ⟨hf, ?_, hinvoked, hended⟩
  rw [hretr, ← hrec.retries]
  rfl

/-- A time to send that does not go beyond the last time there is lies ahead. -/
theorem lt_nextSend {now : Time} {timeout : UInt64}
    (h : now.toNat + (if timeout = 0 then defaultTimeout else timeout).toNat < 2 ^ 64) : now < (recordOf now s timeout).nextSend := by
  have hpos : 0 < (if timeout = 0 then defaultTimeout else timeout).toNat := by
    split_ifs with hzero
    · decide
    · refine Nat.pos_of_ne_zero (fun h => hzero ?_)
      exact UInt64.toNat_inj.1 h
  rw [UInt64.lt_iff_toNat_lt]
  change now.toNat < (now + _).toNat
  rw [UInt64.toNat_add, Nat.mod_eq_of_lt h]
  omega

end DisciplineAux

open DisciplineAux

/-- Callback discipline, in three parts, when an application that lives and whose tags differ has nothing to run.
1. Everything that was given to `send` with something to call waits, with its one record and no callback run, or its record has
   ended and its callbacks for success, or those for failure, ran once; those for failure only after all retries were made.
2. If this is the end of a loop over the overdue records, each record the loop found has been dealt with once.
3. And each record inserted meanwhile is untouched, if the time to send it is no later than the last time there is. -/
theorem callbacks_disciplined {A F : Type} {address : A} {m : ApplicationConfig A F}
    (h : Run (applicationProgram A F) (fun m l => distinctTags m l = true) (startApplication F address) m)
    (hlive : m.state.dead = false) (hidle : m.stack = []) :
    (∀ s ∈ given m.trace, Waits s m ∨
      ∃ ok, Concluded s ok m ∧ (ok = false → retransmitted s.message.tag m.trace = s.maxRetries.toNat)) ∧
    ∀ m₁, Run (applicationProgram A F) (fun m l => distinctTags m l = true) (startApplication F address) m₁ →
      m₁.stack = [.base (.overdue none)] →
      Run (applicationProgram A F) (fun m l => distinctTags m l = true ∧ m.stack ≠ []) m₁ m →
      (∀ tag r, (tag, r) ∈ m₁.state.callbacks.entries → DealtOnce tag r m₁ m) ∧
      ∃ seg, m.trace = seg ++ m₁.trace ∧ ∀ drawn msg cb mr timeout, (.base (.send msg cb mr timeout), drawn) ∈ seg →
        cb.isEmpty = false → m₁.state.epoch.toNat + (if timeout = 0 then defaultTimeout else timeout).toNat < 2 ^ 64 →
        Untouched (msg.tagged drawn).tag (recordOf m₁.state.epoch ⟨msg.tagged drawn, cb, mr⟩ timeout) m := by
  have hm := courses_of_run h hlive
  refine ⟨fun s hs => waits_or_settled hm hidle hs, fun m₁ h₁ hstack hscan => ?_⟩
  have hm₁ := courses_of_run h₁ (live_of_run hscan hlive)
  obtain ⟨pt, seg, hpt, hseg, hold, hnew⟩ := scan_of_run h₁ hstack hscan hlive
  have hover : pt = .past := by
    have hstack := hpt.stack
    rw [hidle] at hstack
    cases pt with
    | past => rfl
    | looking after => cases hstack
    | retrying t => cases hstack
    | failing t inner => cases inner <;> cases hstack
  subst hover
  refine ⟨fun tag r hr => ?_, seg, hseg, fun drawn msg cb mr timeout hmem hcb hfits => ?_⟩
  · have hf := SortedMap.find?_eq_some_iff.2 hr
    exact dealtOnce_of_tracked hm₁ hstack hm hidle ⟨seg, hseg.symm⟩ hf (hold tag r hf)
  · have hlater := lt_nextSend (s := ⟨msg.tagged drawn, cb, mr⟩) hfits
    exact untouched_of_tracked hm hidle hlater (hnew drawn msg cb mr timeout hmem hcb hlater)

/-- An application with one record, at the start of the scan of a tick. -/
def beforeScan (time : Time) : List (ApplicationLabel Nat Nat) :=
  [.enter (.base (.send ⟨0, 0, 1, 1, []⟩ (.of 1 2) 0 1)), .run 0, .enter (.base (.tick time)), .run 0, .run 0]

/-- The record fails, and its callback sends another message. -/
def sendInScan : List (ApplicationLabel Nat Nat) :=
  [.run 0, .run 0, .enter (.base (.send ⟨0, 0, 1, 2, []⟩ (.of 3 4) 0 0)), .run 0, .leave, .run 0, .run 0]

/-- A record fails in a scan, and another is inserted: the first is dealt with once, the second waits. -/
theorem callbacks_disciplined_sample : ∃ m₁ m : ApplicationConfig Nat Nat, m.stack = [] ∧
    m₁.state.callbacks.entries.map (·.1) = [1] ∧ m.state.callbacks.entries.map (·.1) = [2] ∧
    (∀ s ∈ given m.trace, Waits s m ∨
      ∃ ok, Concluded s ok m ∧ (ok = false → retransmitted s.message.tag m.trace = s.maxRetries.toNat)) ∧
    ∀ tag r, (tag, r) ∈ m₁.state.callbacks.entries → DealtOnce tag r m₁ m := by
  obtain ⟨m₁, hr, hm₁⟩ := exists_run_of_follow (applicationProgram Nat Nat) distinctTags (startApplication Nat 0)
    (beforeScan 5) (fun m₁ => decide (m₁.stack = [.base (.overdue none)]) && decide (m₁.state.callbacks.entries.map (·.1) = [1]) &&
      (follow (applicationProgram Nat Nat) (fun m l => distinctTags m l && !m.stack.isEmpty) m₁ (sendInScan ++ [.run 0])).any
        (fun m : ApplicationConfig Nat Nat => m.stack.isEmpty && !m.state.dead &&
          decide (m.state.callbacks.entries.map (·.1) = [2]))) (by decide +kernel)
  simp only [Bool.and_eq_true, List.isEmpty_iff, Bool.not_eq_true', decide_eq_true_eq, Option.any_eq_true] at hm₁
  obtain ⟨⟨hstack, hkeys⟩, m, hm, ⟨hidle, hlive⟩, hkeys'⟩ := hm₁
  have hscan := (run_of_follow hm).mono (fun _ _ h => by simpa using h)
  have h := callbacks_disciplined (hr.trans (hscan.mono (fun _ _ h => h.1))) hlive hidle
  exact ⟨m₁, m, hidle, hkeys, hkeys', h.1, (h.2 m₁ hr hstack hscan).1⟩

/-- At the last time there is, a record that is inserted in a scan counts as overdue: the scan ends it at once, and its failure
callback runs, twenty ticks too early. -/
theorem callbacks_disciplined_false : ∃ m₁ m : ApplicationConfig Nat Nat,
    Run (applicationProgram Nat Nat) (fun m l => distinctTags m l = true) (startApplication Nat 0) m₁ ∧
    m₁.stack = [.base (.overdue none)] ∧ m₁.state.callbacks.find? 2 = none ∧
    Run (applicationProgram Nat Nat) (fun m l => (distinctTags m l && !m.stack.isEmpty) = true) m₁ m ∧ m.stack = [] ∧
    m.state.dead = false ∧ (given m.trace).map (·.message.tag) = [2, 1] ∧ m.state.callbacks.find? 2 = none ∧
    invoked 2 m.trace = [(false, 4)] := by
  obtain ⟨m₁, hr, hm₁⟩ := exists_run_of_follow (applicationProgram Nat Nat) distinctTags (startApplication Nat 0)
    (beforeScan (-1)) (fun m₁ => decide (m₁.stack = [.base (.overdue none)]) && (m₁.state.callbacks.find? 2).isNone &&
      (follow (applicationProgram Nat Nat) (fun m l => distinctTags m l && !m.stack.isEmpty) m₁
        (sendInScan ++ [.run 0, .leave, .run 0, .run 0])).any (fun m : ApplicationConfig Nat Nat => m.stack.isEmpty &&
          !m.state.dead && decide ((given m.trace).map (·.message.tag) = [2, 1]) && (m.state.callbacks.find? 2).isNone &&
          decide (invoked 2 m.trace = [(false, 4)]))) (by decide +kernel)
  simp only [Bool.and_eq_true, List.isEmpty_iff, Bool.not_eq_true', decide_eq_true_eq, Option.any_eq_true,
    Option.isNone_iff_eq_none] at hm₁
  obtain ⟨⟨hstack, hnone⟩, m, hm, ⟨⟨⟨hidle, hlive⟩, hgiven⟩, hgone⟩, hinvoked⟩ := hm₁
  exact ⟨m₁, m, hr, hstack, hnone, run_of_follow hm, hidle, hlive, hgiven, hgone, hinvoked⟩

end Dhtsim
