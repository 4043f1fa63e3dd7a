import Dhtsim.Lemmas.Mentions

/-!
# The schedule of retransmissions

What is sent at epoch `t` with the timeout `T` and `R` retries is sent again at `t + T (2 ^ i - 1)` for `i = 1, …, R`, and
given up at `t + T (2 ^ (R + 1) - 1)`. The record does not hold the interval: it is the distance of its two times, which a
retry doubles. A tick finds every record that is due, so that none is late.
-/

namespace Dhtsim

open CallMachine

section Schedule

variable {A F : Type}

/-- The epochs at which the message of a tag was sent again, the first one first. -/
def resentAt (tag : Tag) : ApplicationTrace A F → List Nat
  | [] => []
  | (c, _) :: tr => resentAt tag tr ++ if c.resends = some tag then [(lastTick tr).toNat] else []

/-- The functions of the record of a tag that ran, each with its epoch and the outcome it ran for, the first one first. -/
def invokedAt (tag : Tag) : ApplicationTrace A F → List (Nat × Bool × F)
  | [] => []
  | (c, _) :: tr => invokedAt tag tr ++ (c.invokes tag).map (fun x => ((lastTick tr).toNat, x))

/-- The application is ticked at the next epoch, and gets no message with the tag. -/
def unanswered (tag : Tag) (m : ApplicationConfig A F) (l : ApplicationLabel A F) : Bool :=
  match l, m.stack with
  | .run _, .base (.receive q) :: _ => q.tag ≠ tag
  | .enter (.base (.tick time)), _ => time.toNat = m.state.epoch.toNat + 1
  | _, _ => true

/-- Nor is it given anything else to send with a callback under the tag. -/
def leftWaiting (tag : Tag) (m : ApplicationConfig A F) (l : ApplicationLabel A F) : Bool :=
  unanswered tag m l && match l, m.stack with
    | .run drawn, .base (.send q cb _ _) :: _ => cb.isEmpty || (q.tagged drawn).tag ≠ tag
    | _, _ => true

/-- The epoch of retry `i`, and for one more than there are retries that of the failure. -/
def dueEpoch (t T i : Nat) : Nat := t + T * (2 ^ i - 1)

namespace ScheduleAux

variable {t T R i : Nat}

/-! ## The epochs -/

theorem dueEpoch_succ : dueEpoch t T (i + 1) = dueEpoch t T i + T * 2 ^ i := by
  have hpos : 0 < 2 ^ i := Nat.two_pow_pos i
  have hpow : 2 ^ (i + 1) - 1 = (2 ^ i - 1) + 2 ^ i := by
    rw [Nat.pow_succ]
    omega
  rw [dueEpoch, dueEpoch, hpow, Nat.mul_add, Nat.add_assoc]

theorem dueEpoch_lt_succ (hT : 0 < T) : dueEpoch t T i < dueEpoch t T (i + 1) := by
  rw [dueEpoch_succ]
  exact Nat.lt_add_of_pos_right (Nat.mul_pos hT (Nat.two_pow_pos i))

theorem dueEpoch_mono {j : Nat} (h : i ≤ j) : dueEpoch t T i ≤ dueEpoch t T j := by
  refine Nat.add_le_add_left (Nat.mul_le_mul_left T ?_) t
  exact Nat.sub_le_sub_right (Nat.pow_le_pow_right (by decide) h) 1

/-- None of the epochs is so late that `Time` wraps. -/
theorem dueEpoch_lt (h : t + T * 2 ^ (R + 1) < 2 ^ 64) (hi : i ≤ R + 1) : dueEpoch t T i < 2 ^ 64 := by
  refine lt_of_le_of_lt ((dueEpoch_mono hi).trans ?_) h
  exact Nat.add_le_add_left (Nat.mul_le_mul_left T (Nat.sub_le _ _)) t

/-! ## The record -/

/-- The record after `i` retries. -/
structure Scheduled (msg : Message A) (cb : CallbackSet F) (t T R : Nat) (r : SentMessage A F) (i : Nat) : Prop where
  message : r.message = msg
  callback : r.callback = cb
  maxRetries : r.maxRetries.toNat = R
  retries : r.retries.toNat = i
  le : i ≤ R
  timeSent : r.timeSent.toNat = dueEpoch t T i
  nextSend : r.nextSend.toNat = dueEpoch t T (i + 1)

variable {msg : Message A} {cb : CallbackSet F} {r : SentMessage A F}

theorem scheduled_new {epoch : Time} {timeout : UInt64} {maxRetries : UInt32} (hT : timeout ≠ 0)
    (hroom : epoch.toNat + timeout.toNat * 2 ^ (maxRetries.toNat + 1) < 2 ^ 64) :
    Scheduled msg cb epoch.toNat timeout.toNat maxRetries.toNat
      (SentMessage.new msg cb epoch (if timeout = 0 then defaultTimeout else timeout) maxRetries) 0 := by
  have hone : timeout.toNat * 1 ≤ timeout.toNat * 2 ^ (maxRetries.toNat + 1) :=
    Nat.mul_le_mul_left _ (Nat.one_le_two_pow)
  refine ⟨rfl, rfl, UInt32.toNat_toUInt64 _, rfl, Nat.zero_le _, by simp [SentMessage.new, dueEpoch], ?_⟩
  rw [SentMessage.new, if_neg hT, UInt64.toNat_add, Nat.mod_eq_of_lt (by omega), dueEpoch]
  omega

/-- A retry at its epoch doubles the interval. -/
theorem scheduled_retry {epoch : Time} (h : Scheduled msg cb t T R r i) (hroom : t + T * 2 ^ (R + 1) < 2 ^ 64) (hi : i < R)
    (hR : R < 2 ^ 32) (hepoch : epoch.toNat = dueEpoch t T (i + 1)) : Scheduled msg cb t T R (r.retry epoch) (i + 1) := by
  have hnext : dueEpoch t T (i + 1 + 1) < 2 ^ 64 := dueEpoch_lt hroom (by omega)
  have hsucc : dueEpoch t T (i + 1) = dueEpoch t T i + T * 2 ^ i := dueEpoch_succ
  have hsucc' : dueEpoch t T (i + 1 + 1) = dueEpoch t T (i + 1) + T * 2 ^ i * 2 := by
    rw [dueEpoch_succ, Nat.pow_succ, Nat.mul_assoc]
  have hdiff : (r.nextSend - r.timeSent).toNat = T * 2 ^ i := by
    rw [UInt64.toNat_sub_of_le _ _ (UInt64.le_iff_toNat_le.2 ?_), h.nextSend, h.timeSent]
    · omega
    · rw [h.nextSend, h.timeSent]
      omega
  have hgrown : ((r.nextSend - r.timeSent) * backoffFactor).toNat = T * 2 ^ i * 2 := by
    rw [UInt64.toNat_mul, hdiff]
    exact Nat.mod_eq_of_lt (by show T * 2 ^ i * 2 < 2 ^ 64; omega)
  refine ⟨h.message, h.callback, h.maxRetries, ?_, hi, hepoch, ?_⟩
  · rw [SentMessage.retry, UInt64.toNat_add, h.retries]
    exact Nat.mod_eq_of_lt (by show i + 1 < 2 ^ 64; omega)
  · rw [SentMessage.retry, UInt64.toNat_add, hgrown, hepoch, Nat.mod_eq_of_lt (by omega)]
    omega

/-! ## What a call adds to the history -/

variable {tag drawn : Tag} {c : ApplicationCall A F} {app app' : BaseApplication A F} {cs rest : List (ApplicationCall A F)}
  {tr : ApplicationTrace A F} {past : List Nat} {ran : List (Nat × Bool × F)}

theorem history_cons (drawn : Tag) (tr : ApplicationTrace A F) (hc : ¬ c.Mentions tag) :
    resentAt tag ((c, drawn) :: tr) = resentAt tag tr ∧ invokedAt tag ((c, drawn) :: tr) = invokedAt tag tr := by
  have hinvokes : c.invokes tag = [] := by
    by_contra h
    exact hc (Or.inl h)
  have hresends : c.resends ≠ some tag := fun h => hc (Or.inr (Or.inl h))
  rw [resentAt, invokedAt, hinvokes, if_neg hresends, List.append_nil, List.map_nil, List.append_nil]
  exact ⟨rfl, rfl⟩

/-! ## The stages of a record -/

/-- Where what was sent at `t` with the timeout `T` and `R` retries is: it waits for the next time it is due, is about to be
sent again, its functions for failure are running, or its record is gone. -/
inductive Stage (msg : Message A) (cb : CallbackSet F) (t T R : Nat) (past : List Nat) (ran : List (Nat × Bool × F)) :
    ApplicationConfig A F → Prop where
  | waiting {s : BaseApplication A F} {stack : List (ApplicationCall A F)} {tr' : ApplicationTrace A F} {r : SentMessage A F}
      {i : Nat} (hf : s.callbacks.find? msg.tag = some r) (hr : Scheduled msg cb t T R r i)
      (hsilent : ∀ c ∈ stack, ¬ c.Mentions msg.tag) (hstart : dueEpoch t T i ≤ s.epoch.toNat)
      (hdue : s.epoch.toNat < dueEpoch t T (i + 1) ∨ s.epoch.toNat ≤ dueEpoch t T (i + 1) ∧
        ∃ after, .base (.overdue after) ∈ stack ∧ ∀ a, after = some a → a < msg.tag)
      (htick : ∀ time, .base (.tick time) ∈ stack → time.toNat = s.epoch.toNat + 1)
      (hresent : resentAt msg.tag tr' = past ++ (List.range i).map (fun j => dueEpoch t T (j + 1)))
      (hinvoked : invokedAt msg.tag tr' = ran) : Stage msg cb t T R past ran ⟨s, stack, tr'⟩
  | retrying {s : BaseApplication A F} {under : List (ApplicationCall A F)} {tr' : ApplicationTrace A F} {r : SentMessage A F}
      {i : Nat} (hf : s.callbacks.find? msg.tag = some r) (hr : Scheduled msg cb t T R r i) (hi : i < R)
      (hsilent : ∀ c ∈ under, ¬ c.Mentions msg.tag) (hepoch : s.epoch.toNat = dueEpoch t T (i + 1))
      (hresent : resentAt msg.tag tr' = past ++ (List.range i).map (fun j => dueEpoch t T (j + 1)))
      (hinvoked : invokedAt msg.tag tr' = ran) :
      Stage msg cb t T R past ran ⟨s, .base (.attemptRetry msg.tag) :: under, tr'⟩
  | failing {s : BaseApplication A F} {above under : List (ApplicationCall A F)} {tr' : ApplicationTrace A F}
      {r : SentMessage A F} {fns done : List F} (hf : s.callbacks.find? msg.tag = some r) (hr : Scheduled msg cb t T R r R)
      (habove : ∀ c ∈ above, c.isSend = true ∨ c.isUserCode = true) (hsilent : ∀ c ∈ under, ¬ c.Mentions msg.tag)
      (hepoch : s.epoch.toNat = dueEpoch t T (R + 1)) (hfns : done ++ fns = cb.failureFns)
      (hresent : resentAt msg.tag tr' = past ++ (List.range R).map (fun j => dueEpoch t T (j + 1)))
      (hinvoked : invokedAt msg.tag tr' = ran ++ done.map (fun fn => (dueEpoch t T (R + 1), false, fn))) :
      Stage msg cb t T R past ran
        ⟨s, above ++ (fns.map (fun fn => .base (.callback false fn msg)) ++ .base (.erase msg.tag) :: under), tr'⟩
  | gone {s : BaseApplication A F} {stack : List (ApplicationCall A F)} {tr' : ApplicationTrace A F}
      (hf : s.callbacks.find? msg.tag = none) (hsilent : ∀ c ∈ stack, ¬ c.Mentions msg.tag)
      (hepoch : dueEpoch t T (R + 1) ≤ s.epoch.toNat)
      (htick : ∀ time, .base (.tick time) ∈ stack → time.toNat = s.epoch.toNat + 1)
      (hresent : resentAt msg.tag tr' = past ++ (List.range R).map (fun j => dueEpoch t T (j + 1)))
      (hinvoked : invokedAt msg.tag tr' = ran ++ cb.failureFns.map (fun fn => (dueEpoch t T (R + 1), false, fn))) :
      Stage msg cb t T R past ran ⟨s, stack, tr'⟩

/-- What is sent, or received, is about another tag. -/
theorem other_of_leftWaiting (hok : leftWaiting tag ⟨app, c :: rest, tr⟩ (.run drawn) = true) :
    (∀ q cb mr t, c = .base (.send q cb mr t) → cb.isEmpty = true ∨ (q.tagged drawn).tag ≠ tag) ∧
      ∀ q, c = .base (.receive q) → q.tag ≠ tag := by
  constructor
  · rintro q cb mr t rfl
    simpa [leftWaiting, unanswered] using hok
  · rintro q rfl
    simpa [leftWaiting, unanswered] using hok

/-- The epoch goes on with a tick, by one. -/
theorem epoch_step (htick : ∀ time, .base (.tick time) ∈ c :: rest → time.toNat = app.epoch.toNat + 1)
    (he : BaseApplication.execCall drawn c app = some (app', cs)) (hlive : app.dead = false) :
    (∃ time, c = .base (.tick time) ∧ app'.epoch.toNat = app.epoch.toNat + 1) ∨
      (∀ time, c ≠ .base (.tick time)) ∧ app'.epoch = app.epoch := by
  rcases BaseApplication.epoch_execCall he hlive with ⟨time, rfl, hepoch⟩ | h
  · exact Or.inl ⟨time, rfl, hepoch ▸ htick time List.mem_cons_self⟩
  · exact Or.inr h

/-- The loop over the records looks at the record of the tag, or goes on before it or behind it. -/
theorem waiting_overdue (hm : Standing ⟨app, c :: rest, tr⟩) (hlive : app.dead = false) {after : Option Tag}
    (hc : c = .base (.overdue after))
    (he : BaseApplication.execCall drawn c app = some (app', cs)) (hf : app.callbacks.find? msg.tag = some r)
    (hr : Scheduled msg cb t T R r i) (hrest : ∀ x ∈ rest, ¬ x.Mentions msg.tag)
    (hstart : dueEpoch t T i ≤ app.epoch.toNat)
    (hdue : app.epoch.toNat < dueEpoch t T (i + 1) ∨ app.epoch.toNat ≤ dueEpoch t T (i + 1) ∧
      ∃ after, .base (.overdue after) ∈ c :: rest ∧ ∀ a, after = some a → a < msg.tag)
    (htick : ∀ time, .base (.tick time) ∈ rest → time.toNat = app.epoch.toNat + 1)
    (hresent : resentAt msg.tag ((c, drawn) :: tr) = past ++ (List.range i).map (fun j => dueEpoch t T (j + 1)))
    (hinvoked : invokedAt msg.tag ((c, drawn) :: tr) = ran) :
    Stage msg cb t T R past ran ⟨app', cs ++ rest, (c, drawn) :: tr⟩ := by
  subst hc
  have hnotick := BaseApplication.makes_no_tick he
  have htick' : ∀ time, .base (.tick time) ∈ cs ++ rest → time.toNat = app.epoch.toNat + 1 := by
    intro time hmem
    rcases List.mem_append.1 hmem with hmem | hmem
    · exact absurd hmem (hnotick time)
    · exact htick time hmem
  have hle : app.epoch.toNat ≤ dueEpoch t T (i + 1) := by
    rcases hdue with h | h
    · exact h.le
    · exact h.1
  have hmem := SortedMap.find?_eq_some_iff.1 hf
  obtain ⟨rfl, ⟨hn, rfl⟩ | ⟨tag', r', hn, hcases⟩⟩ := BaseApplication.overdue_cases after he
  · -- behind the last record
    refine .waiting hf hr hrest hstart ?_ htick' hresent hinvoked
    refine hdue.imp_right (fun ⟨h, after', hmem', hahead⟩ => ⟨h, after', ?_, hahead⟩)
    rcases List.mem_cons.1 hmem' with heq | hmem'
    · cases heq
      exact absurd hmem (SortedMap.not_mem_of_next hn hahead)
    · exact hmem'
  by_cases htag : tag' = msg.tag
  · subst htag
    obtain rfl : r' = r := Option.some.inj ((SortedMap.find?_eq_some_iff.2 (SortedMap.mem_of_next hn)).symm.trans hf)
    rcases hcases with ⟨hlate, rfl⟩ | ⟨hlate, hneeds, rfl⟩ | ⟨hlate, hneeds, rfl⟩
    · refine .waiting hf hr ?_ hstart (Or.inl ?_) htick' hresent hinvoked
      · intro x hx
        rcases List.mem_cons.1 hx with rfl | hx
        · exact not_mentions_overdue
        · exact hrest x hx
      · rw [UInt64.le_iff_toNat_le, hr.nextSend] at hlate
        omega
    · rw [UInt64.le_iff_toNat_le, hr.nextSend] at hlate
      have hi : i < R := by
        have hlt := UInt64.lt_iff_toNat_lt.1 (of_decide_eq_true hneeds)
        rwa [hr.retries, hr.maxRetries] at hlt
      refine .retrying hf hr hi (fun x hx => ?_) (by omega) hresent hinvoked
      rcases List.mem_cons.1 hx with rfl | hx
      · exact not_mentions_overdue
      · exact hrest x hx
    · rw [UInt64.le_iff_toNat_le, hr.nextSend] at hlate
      have hi : i = R := by
        have hlt := of_decide_eq_false hneeds
        rw [UInt64.lt_iff_toNat_lt, hr.retries, hr.maxRetries] at hlt
        have := hr.le
        omega
      subst hi
      rw [hr.callback, hr.message, List.append_assoc]
      have hsilent : ∀ x ∈ .base (.overdue (some msg.tag)) :: rest, ¬ x.Mentions msg.tag := by
        intro x hx
        rcases List.mem_cons.1 hx with rfl | hx
        · exact not_mentions_overdue
        · exact hrest x hx
      have hstage : Stage msg cb t T i past ran ⟨_, [] ++ (cb.failureFns.map (fun fn => .base (.callback false fn msg)) ++
          .base (.erase msg.tag) :: (.base (.overdue (some msg.tag)) :: rest)), (.base (.overdue after), drawn) :: tr⟩ :=
        .failing hf hr (fun x hx => absurd hx List.not_mem_nil) hsilent (by omega) (List.nil_append _) hresent
          (hinvoked.trans (List.append_nil _).symm)
      exact hstage
  · -- another record
    have hmade : .base (.overdue (some tag')) ∈ cs ∧ ∀ x ∈ cs, ¬ x.Mentions msg.tag := by
      refine ⟨?_, fun x hx hmention => ?_⟩
      · rcases hcases with ⟨-, rfl⟩ | ⟨-, -, rfl⟩ | ⟨-, -, rfl⟩ <;> simp
      · obtain ⟨_, -, ⟨after', heq, hn', -⟩ | ⟨q, heq, -⟩⟩ := BaseApplication.makes_mentions he hlive hm.keyed hx hmention
        · cases heq
          rw [hn] at hn'
          cases hn'
          exact htag rfl
        · cases heq
    refine .waiting hf hr (fun x hx => ?_) hstart ?_ htick' hresent hinvoked
    · rcases List.mem_append.1 hx with hx | hx
      · exact hmade.2 x hx
      · exact hrest x hx
    · refine hdue.imp_right (fun ⟨h, after', hmem', hahead⟩ => ⟨h, ?_⟩)
      rcases List.mem_cons.1 hmem' with heq | hmem'
      · cases heq
        refine ⟨some tag', List.mem_append_left _ hmade.1, ?_⟩
        rintro a ⟨⟩
        exact lt_of_le_of_ne (SortedMap.le_of_next hn hmem hahead) htag
      · exact ⟨after', List.mem_append_right _ hmem', hahead⟩

/-- What happens that is about other tags, or is a tick, leaves the record waiting. -/
theorem waiting_exec (hm : Standing ⟨app, c :: rest, tr⟩) (hlive : app.dead = false)
    (hok : leftWaiting msg.tag ⟨app, c :: rest, tr⟩ (.run drawn) = true)
    (he : BaseApplication.execCall drawn c app = some (app', cs)) (hf : app.callbacks.find? msg.tag = some r)
    (hr : Scheduled msg cb t T R r i) (hsilent : ∀ x ∈ c :: rest, ¬ x.Mentions msg.tag)
    (hstart : dueEpoch t T i ≤ app.epoch.toNat)
    (hdue : app.epoch.toNat < dueEpoch t T (i + 1) ∨ app.epoch.toNat ≤ dueEpoch t T (i + 1) ∧
      ∃ after, .base (.overdue after) ∈ c :: rest ∧ ∀ a, after = some a → a < msg.tag)
    (htick : ∀ time, .base (.tick time) ∈ c :: rest → time.toNat = app.epoch.toNat + 1)
    (hresent : resentAt msg.tag tr = past ++ (List.range i).map (fun j => dueEpoch t T (j + 1)))
    (hinvoked : invokedAt msg.tag tr = ran) :
    Stage msg cb t T R past ran ⟨app', cs ++ rest, (c, drawn) :: tr⟩ := by
  have hc := hsilent c List.mem_cons_self
  have hrest : ∀ x ∈ rest, ¬ x.Mentions msg.tag := fun x hx => hsilent x (List.mem_cons_of_mem _ hx)
  obtain ⟨hsend, hreceive⟩ := other_of_leftWaiting hok
  obtain ⟨hresent', hinvoked'⟩ := history_cons drawn tr hc
  by_cases hover : ∃ after, c = .base (.overdue after)
  · obtain ⟨after, hafter⟩ := hover
    exact waiting_overdue hm hlive hafter he hf hr hrest hstart hdue
      (fun time hmem => htick time (List.mem_cons_of_mem _ hmem)) (hresent'.trans hresent) (hinvoked'.trans hinvoked)
  have hmade : ∀ x ∈ cs, ¬ x.Mentions msg.tag := by
    intro x hx hmention
    obtain ⟨-, -, ⟨after, hafter, -⟩ | ⟨q, hq, htag⟩⟩ := BaseApplication.makes_mentions he hlive hm.keyed hx hmention
    · exact hover ⟨after, hafter⟩
    · exact hreceive q hq htag
  have hf' : app'.callbacks.find? msg.tag = some r := (BaseApplication.find?_execCall he hc hsend).trans hf
  have hsilent' : ∀ x ∈ cs ++ rest, ¬ x.Mentions msg.tag := by
    intro x hx
    rcases List.mem_append.1 hx with hx | hx
    · exact hmade x hx
    · exact hrest x hx
  have hnotick : ∀ time, .base (.tick time) ∈ cs ++ rest → .base (.tick time) ∈ rest := by
    intro time hmem
    exact (List.mem_append.1 hmem).resolve_left (BaseApplication.makes_no_tick he time)
  rcases epoch_step htick he hlive with ⟨time, rfl, hepoch⟩ | ⟨hne, hepoch⟩
  · -- the tick begins, and the loop over the records is still to come
    have halone : rest = [] := (List.cons.inj (hm.ticks time List.mem_cons_self)).2
    subst halone
    have hmore : app.epoch.toNat < dueEpoch t T (i + 1) := by
      refine hdue.resolve_right ?_
      rintro ⟨-, after, hmem, -⟩
      cases List.mem_singleton.1 hmem
    refine .waiting hf' hr hsilent' (by omega) (Or.inr ⟨by omega, none, ?_, nofun⟩)
      (fun time hmem => absurd (hnotick time hmem) List.not_mem_nil) (hresent'.trans hresent) (hinvoked'.trans hinvoked)
    simp only [BaseApplication.execCall, BaseApplication.exec, hlive, Option.some.injEq, Prod.mk.injEq] at he
    rw [← he.2]
    simp
  · refine .waiting hf' hr hsilent' (by rw [hepoch]; exact hstart) ?_ ?_ (hresent'.trans hresent) (hinvoked'.trans hinvoked)
    · rw [hepoch]
      rcases hdue with h | ⟨h, after, hmem, hahead⟩
      · exact Or.inl h
      · rcases List.mem_cons.1 hmem with heq | hmem
        · exact absurd ⟨after, heq.symm⟩ hover
        · exact Or.inr ⟨h, after, List.mem_append_right _ hmem, hahead⟩
    · intro time hmem
      rw [hepoch]
      exact htick time (List.mem_cons_of_mem _ (hnotick time hmem))

/-- The message is sent again, and its record waits for the next time it is due. -/
theorem retrying_exec (hT : 0 < T) (hR : R < 2 ^ 32) (hroom : t + T * 2 ^ (R + 1) < 2 ^ 64)
    (hm : Standing ⟨app, .base (.attemptRetry msg.tag) :: rest, tr⟩)
    (he : BaseApplication.execCall drawn (.base (.attemptRetry msg.tag)) app = some (app', cs))
    (hf : app.callbacks.find? msg.tag = some r) (hr : Scheduled msg cb t T R r i) (hi : i < R)
    (hrest : ∀ x ∈ rest, ¬ x.Mentions msg.tag) (hepoch : app.epoch.toNat = dueEpoch t T (i + 1))
    (hresent : resentAt msg.tag tr = past ++ (List.range i).map (fun j => dueEpoch t T (j + 1)))
    (hinvoked : invokedAt msg.tag tr = ran) :
    Stage msg cb t T R past ran ⟨app', cs ++ rest, (.base (.attemptRetry msg.tag), drawn) :: tr⟩ := by
  have hcs : cs = [] ∧ app'.epoch = app.epoch := by
    cases he
    exact ⟨rfl, by rw [BaseApplication.exec, BaseApplication.attemptRetry_eq]⟩
  obtain ⟨rfl, hsame⟩ := hcs
  have hf' : app'.callbacks.find? msg.tag = some (r.retry app.epoch) := by
    cases he
    rw [BaseApplication.exec, BaseApplication.attemptRetry, hf]
    dsimp only
    rw [SortedMap.find?_insert_self, BaseApplication.send_eq]
  have hclock : app.epoch = lastTick tr := hm.clock
  have hlt := dueEpoch_lt_succ (t := t) (i := i + 1) hT
  refine .waiting hf' (scheduled_retry hr hroom hi hR hepoch) hrest (by rw [hsame, hepoch])
    (Or.inl (by rw [hsame, hepoch]; exact hlt)) (fun time hmem => ?_) ?_ ?_
  · cases (List.cons.inj (hm.ticks time (List.mem_cons_of_mem _ hmem))).1
  · have hresends : (.base (.attemptRetry msg.tag) : ApplicationCall A F).resends = some msg.tag := rfl
    rw [resentAt, hresent, if_pos hresends, ← hclock, hepoch, List.range_succ, List.map_append, List.append_assoc]
    rfl
  · rw [invokedAt, hinvoked]
    exact List.append_nil _

/-- The functions for failure run one after the other, and the record is erased. -/
theorem failing_exec {above under : List (ApplicationCall A F)} {fns done : List F}
    (hstack : c :: rest = above ++ (fns.map (fun fn => .base (.callback false fn msg)) ++ .base (.erase msg.tag) :: under))
    (hm : Standing ⟨app, c :: rest, tr⟩) (hlive : app.dead = false)
    (hok : leftWaiting msg.tag ⟨app, c :: rest, tr⟩ (.run drawn) = true)
    (he : BaseApplication.execCall drawn c app = some (app', cs))
    (hf : app.callbacks.find? msg.tag = some r) (hr : Scheduled msg cb t T R r R)
    (habove : ∀ c ∈ above, c.isSend = true ∨ c.isUserCode = true) (hsilent : ∀ c ∈ under, ¬ c.Mentions msg.tag)
    (hepoch : app.epoch.toNat = dueEpoch t T (R + 1)) (hfns : done ++ fns = cb.failureFns)
    (hresent : resentAt msg.tag tr = past ++ (List.range R).map (fun j => dueEpoch t T (j + 1)))
    (hinvoked : invokedAt msg.tag tr = ran ++ done.map (fun fn => (dueEpoch t T (R + 1), false, fn))) :
    Stage msg cb t T R past ran ⟨app', cs ++ rest, (c, drawn) :: tr⟩ := by
  have hclock : app.epoch = lastTick tr := hm.clock
  cases above with
  | cons a above =>
    -- a message that a callback sends
    obtain ⟨rfl, rfl⟩ := List.cons.inj hstack
    have hsent : ∃ q cbf mr time, c = .base (.send q cbf mr time) := by
      rcases habove c List.mem_cons_self with hsend | huser
      · exact eq_send_of_reentry hsend
      · cases c with
        | userCode => cases he
        | base b => cases huser
    obtain ⟨q, cbf, mr, time, rfl⟩ := hsent
    have hquiet : ¬ (.base (.send q cbf mr time) : ApplicationCall A F).Mentions msg.tag := not_mentions_of_isEvent rfl
    obtain ⟨hresent', hinvoked'⟩ := history_cons drawn tr hquiet
    have hf' := (BaseApplication.find?_execCall he hquiet (other_of_leftWaiting hok).1).trans hf
    have hsame : app'.epoch = app.epoch := by
      rcases BaseApplication.epoch_execCall he hlive with ⟨time', heq, -⟩ | ⟨-, hsame⟩
      · cases heq
      · exact hsame
    obtain rfl : cs = [] := by
      simp only [BaseApplication.execCall, BaseApplication.exec, Option.some.injEq, Prod.mk.injEq] at he
      rw [BaseApplication.send_of_live hlive] at he
      exact he.2.symm
    exact .failing hf' hr (fun x hx => habove x (List.mem_cons_of_mem _ hx)) hsilent (hsame ▸ hepoch) hfns
      (hresent'.trans hresent) (hinvoked'.trans hinvoked)
  | nil =>
    have hnotick : ∀ time, .base (.tick time) ∉ rest := by
      intro time hmem
      have halone := (List.cons.inj (hm.ticks time (List.mem_cons_of_mem _ hmem))).2
      rw [halone] at hmem
      cases hmem
    cases fns with
    | cons fn fns =>
      obtain ⟨rfl, rfl⟩ := List.cons.inj hstack
      cases he
      have hstage : Stage msg cb t T R past ran ⟨app, [.userCode] ++ (fns.map (fun fn => .base (.callback false fn msg)) ++
          .base (.erase msg.tag) :: under), (.base (.callback false fn msg), drawn) :: tr⟩ := by
        refine .failing hf hr ?_ hsilent hepoch ((List.append_cons done fn fns).symm.trans hfns) ?_ ?_
        · intro x hx
          rw [List.mem_singleton.1 hx]
          exact Or.inr rfl
        · exact (List.append_nil _).trans hresent
        · have hran : (.base (.callback false fn msg) : ApplicationCall A F).invokes msg.tag = [(false, fn)] := if_pos rfl
          rw [invokedAt, hran, hinvoked, ← hclock, hepoch, List.map_append, List.append_assoc]
          rfl
      exact hstage
    | nil =>
      obtain ⟨rfl, rfl⟩ := List.cons.inj hstack
      cases he
      rw [List.append_nil] at hfns
      subst hfns
      refine .gone ?_ hsilent hepoch.ge (fun time hmem => absurd hmem (hnotick time)) ((List.append_nil _).trans hresent)
        ((List.append_nil _).trans hinvoked)
      exact (SortedMap.find?_erase _ _ _).trans (if_pos rfl)

/-- Once the record is gone, nothing more happens about its tag. -/
theorem gone_exec (hm : Standing ⟨app, c :: rest, tr⟩) (hlive : app.dead = false)
    (hok : leftWaiting msg.tag ⟨app, c :: rest, tr⟩ (.run drawn) = true)
    (he : BaseApplication.execCall drawn c app = some (app', cs)) (hf : app.callbacks.find? msg.tag = none)
    (hsilent : ∀ x ∈ c :: rest, ¬ x.Mentions msg.tag) (hepoch : dueEpoch t T (R + 1) ≤ app.epoch.toNat)
    (htick : ∀ time, .base (.tick time) ∈ c :: rest → time.toNat = app.epoch.toNat + 1)
    (hresent : resentAt msg.tag tr = past ++ (List.range R).map (fun j => dueEpoch t T (j + 1)))
    (hinvoked : invokedAt msg.tag tr = ran ++ cb.failureFns.map (fun fn => (dueEpoch t T (R + 1), false, fn))) :
    Stage msg cb t T R past ran ⟨app', cs ++ rest, (c, drawn) :: tr⟩ := by
  have hc := hsilent c List.mem_cons_self
  obtain ⟨hresent', hinvoked'⟩ := history_cons drawn tr hc
  have hf' : app'.callbacks.find? msg.tag = none :=
    (BaseApplication.find?_execCall he hc (other_of_leftWaiting hok).1).trans hf
  refine .gone hf' (fun x hx hmention => ?_) ?_ (fun time hmem => ?_) (hresent'.trans hresent) (hinvoked'.trans hinvoked)
  · rcases List.mem_append.1 hx with hx | hx
    · obtain ⟨r, hr, -⟩ := BaseApplication.makes_mentions he hlive hm.keyed hx hmention
      exact absurd (hf.symm.trans hr) (by simp)
    · exact hsilent x (List.mem_cons_of_mem _ hx) hmention
  · rcases epoch_step htick he hlive with ⟨time, -, hnext⟩ | ⟨-, hsame⟩
    · omega
    · exact hsame ▸ hepoch
  · have hunder := (List.mem_append.1 hmem).resolve_left (BaseApplication.makes_no_tick he time)
    rcases epoch_step htick he hlive with ⟨time', rfl, -⟩ | ⟨-, hsame⟩
    · rw [(List.cons.inj (hm.ticks time' List.mem_cons_self)).2] at hunder
      cases hunder
    · exact hsame ▸ htick time (List.mem_cons_of_mem _ hunder)

/-- A call that comes in is about no record; a tick is at the next epoch. -/
theorem stage_event {app : BaseApplication A F} {c : ApplicationCall A F} (hc : c.isEvent = true)
    (hok : leftWaiting msg.tag ⟨app, [], tr⟩ (.enter c) = true) (h : Stage msg cb t T R past ran ⟨app, [], tr⟩) :
    Stage msg cb t T R past ran ⟨app, [c], tr⟩ := by
  have hsilent : ∀ x ∈ [c], ¬ x.Mentions msg.tag := by
    intro x hx
    rw [List.mem_singleton.1 hx]
    exact not_mentions_of_isEvent hc
  have htick : ∀ time, .base (.tick time) ∈ [c] → time.toNat = app.epoch.toNat + 1 := by
    intro time hmem
    obtain rfl := List.mem_singleton.1 hmem
    simpa [leftWaiting, unanswered] using hok
  generalize hstack : ([] : List (ApplicationCall A F)) = stack at h
  cases h with
  | waiting hf hr _ hstart hdue _ hresent hinvoked =>
    subst hstack
    refine .waiting hf hr hsilent hstart (Or.inl ?_) htick hresent hinvoked
    exact hdue.resolve_right (fun ⟨_, after, hmem, _⟩ => absurd hmem List.not_mem_nil)
  | retrying => cases hstack
  | failing =>
    have hlen := congrArg List.length hstack
    simp at hlen
  | gone hf _ hepoch _ hresent hinvoked =>
    subst hstack
    exact .gone hf hsilent hepoch htick hresent hinvoked

/-- What a callback sends comes before all that waits. -/
theorem stage_reentry {app : BaseApplication A F} {f c : ApplicationCall A F} (hf : f.isUserCode = true) (hc : c.isSend = true)
    (h : Stage msg cb t T R past ran ⟨app, f :: rest, tr⟩) : Stage msg cb t T R past ran ⟨app, c :: f :: rest, tr⟩ := by
  obtain ⟨q, cbf, mr, time, rfl⟩ := eq_send_of_reentry hc
  have hquiet : ¬ (.base (.send q cbf mr time) : ApplicationCall A F).Mentions msg.tag := not_mentions_of_isEvent rfl
  generalize hstack : f :: rest = stack at h
  cases h with
  | waiting hf' hr hsilent hstart hdue htick hresent hinvoked =>
    refine .waiting hf' hr (List.forall_mem_cons.2 ⟨hquiet, hsilent⟩) hstart ?_ (fun time' hmem => ?_) hresent hinvoked
    · exact hdue.imp_right (fun ⟨h, after, hmem, hahead⟩ => ⟨h, after, List.mem_cons_of_mem _ hmem, hahead⟩)
    · rcases List.mem_cons.1 hmem with heq | hmem
      · cases heq
      · exact htick time' hmem
  | retrying =>
    obtain ⟨rfl, -⟩ := List.cons.inj hstack
    cases hf
  | failing hf' hr habove hsilent hepoch hfns hresent hinvoked =>
    rw [← List.cons_append]
    exact .failing hf' hr (List.forall_mem_cons.2 ⟨Or.inl rfl, habove⟩) hsilent hepoch hfns hresent hinvoked
  | gone hf' hsilent hepoch htick hresent hinvoked =>
    refine .gone hf' (List.forall_mem_cons.2 ⟨hquiet, hsilent⟩) hepoch (fun time' hmem => ?_) hresent hinvoked
    rcases List.mem_cons.1 hmem with heq | hmem
    · cases heq
    · exact htick time' hmem

/-- A callback returns. -/
theorem stage_leave {app : BaseApplication A F} {f : ApplicationCall A F} (hf : f.isUserCode = true)
    (h : Stage msg cb t T R past ran ⟨app, f :: rest, tr⟩) : Stage msg cb t T R past ran ⟨app, rest, tr⟩ := by
  generalize hstack : f :: rest = stack at h
  cases h with
  | waiting hf' hr hsilent hstart hdue htick hresent hinvoked =>
    subst hstack
    refine .waiting hf' hr (fun x hx => hsilent x (List.mem_cons_of_mem _ hx)) hstart ?_
      (fun time hmem => htick time (List.mem_cons_of_mem _ hmem)) hresent hinvoked
    refine hdue.imp_right (fun ⟨h, after, hmem, hahead⟩ => ⟨h, after, ?_, hahead⟩)
    rcases List.mem_cons.1 hmem with rfl | hmem
    · cases hf
    · exact hmem
  | retrying =>
    obtain ⟨rfl, -⟩ := List.cons.inj hstack
    cases hf
  | @failing s above under tr' r fns done hf' hr habove hsilent hepoch hfns hresent hinvoked =>
    cases above with
    | nil =>
      cases fns <;>
      · obtain ⟨rfl, -⟩ := List.cons.inj hstack
        cases hf
    | cons a above =>
      obtain ⟨rfl, rfl⟩ := List.cons.inj hstack
      exact .failing hf' hr (fun x hx => habove x (List.mem_cons_of_mem _ hx)) hsilent hepoch hfns hresent hinvoked
  | gone hf' hsilent hepoch htick hresent hinvoked =>
    subst hstack
    exact .gone hf' (fun x hx => hsilent x (List.mem_cons_of_mem _ hx)) hepoch
      (fun time hmem => htick time (List.mem_cons_of_mem _ hmem)) hresent hinvoked

/-- One call leads from stage to stage. -/
theorem stage_exec (hT : 0 < T) (hR : R < 2 ^ 32) (hroom : t + T * 2 ^ (R + 1) < 2 ^ 64)
    (hm : Standing ⟨app, c :: rest, tr⟩) (hlive : app.dead = false)
    (hok : leftWaiting msg.tag ⟨app, c :: rest, tr⟩ (.run drawn) = true)
    (he : BaseApplication.execCall drawn c app = some (app', cs)) (h : Stage msg cb t T R past ran ⟨app, c :: rest, tr⟩) :
    Stage msg cb t T R past ran ⟨app', cs ++ rest, (c, drawn) :: tr⟩ := by
  generalize hstack : c :: rest = stack at h
  cases h with
  | waiting hf hr hsilent hstart hdue htick hresent hinvoked =>
    subst hstack
    exact waiting_exec hm hlive hok he hf hr hsilent hstart hdue htick hresent hinvoked
  | retrying hf hr hi hsilent hepoch hresent hinvoked =>
    obtain ⟨rfl, rfl⟩ := List.cons.inj hstack
    exact retrying_exec hT hR hroom hm he hf hr hi hsilent hepoch hresent hinvoked
  | failing hf hr habove hsilent hepoch hfns hresent hinvoked =>
    exact failing_exec hstack hm hlive hok he hf hr habove hsilent hepoch hfns hresent hinvoked
  | gone hf hsilent hepoch htick hresent hinvoked =>
    subst hstack
    exact gone_exec hm hlive hok he hf hsilent hepoch htick hresent hinvoked

variable {m m₀ m₁ : ApplicationConfig A F}

/-- A record goes through its stages in every run. -/
theorem stage_of_run (hT : 0 < T) (hR : R < 2 ^ 32) (hroom : t + T * 2 ^ (R + 1) < 2 ^ 64) {address : A}
    (h₀ : Run (applicationProgram A F) anyStep (startApplication F address) m₁) (h₁ : Stage msg cb t T R past ran m₁)
    (h : Run (applicationProgram A F) (fun m l => leftWaiting msg.tag m l = true) m₁ m) (hlive : m.state.dead = false) :
    Stage msg cb t T R past ran m := by
  refine h.invariant (I := fun m => m.state.dead = false → Stage msg cb t T R past ran m) (fun _ => h₁) ?_ hlive
  intro m l m' hr hI hok hs hlive'
  have hlive := live_of_step hs hlive'
  have hm := standing_of_run (h₀.trans (run_anyStep hr)) hlive
  cases hs with
  | run hw he => exact stage_exec hT hR hroom hm hlive hok he (hI hlive)
  | event hc => exact stage_event hc hok (hI hlive)
  | reentry hf hc => exact stage_reentry hf hc (hI hlive)
  | leave hf => exact stage_leave hf (hI hlive)

/-- What is sent waits, when no callbacks of an earlier record of its tag are running. -/
theorem stage_sent {R₀ : UInt32} {T₀ : UInt64} (hm : Standing ⟨app, .base (.send msg cb R₀ T₀) :: rest, tr⟩)
    (hlive : app.dead = false) (htag : msg.tag ≠ 0) (hcb : cb.isEmpty = false) (hT : T₀ ≠ 0)
    (hroom : app.epoch.toNat + T₀.toNat * 2 ^ (R₀.toNat + 1) < 2 ^ 64) (hfree : .base (.erase msg.tag) ∉ rest)
    (he : BaseApplication.execCall drawn (.base (.send msg cb R₀ T₀)) app = some (app', cs))
    (tr' : ApplicationTrace A F) :
    Stage msg cb app.epoch.toNat T₀.toNat R₀.toNat (resentAt msg.tag tr') (invokedAt msg.tag tr') ⟨app', cs ++ rest, tr'⟩ := by
  simp only [BaseApplication.execCall, BaseApplication.exec, Option.some.injEq, Prod.mk.injEq] at he
  rw [BaseApplication.send_of_live hlive, Message.tagged, if_neg htag] at he
  obtain ⟨happ, rfl⟩ := he
  have hf : app'.callbacks.find? msg.tag =
      some (SentMessage.new msg cb app.epoch (if T₀ = 0 then defaultTimeout else T₀) R₀) := by
    rw [← happ, BaseApplication.queueOut_eq, BaseApplication.register, if_neg (by simp [hcb])]
    exact SortedMap.find?_insert_self _ _ _
  have hepoch : app'.epoch = app.epoch := by
    rw [← happ, BaseApplication.queueOut_eq, BaseApplication.register_eq]
  have hsilent : ∀ x ∈ rest, ¬ x.Mentions msg.tag := hm.not_mentions rfl hfree
  have hpos : 0 < T₀.toNat := Nat.pos_of_ne_zero (fun h => hT (UInt64.toNat_inj.1 h))
  have hzero : dueEpoch app.epoch.toNat T₀.toNat 0 = app.epoch.toNat := by simp [dueEpoch]
  refine .waiting hf (scheduled_new hT hroom) hsilent ?_ (Or.inl ?_) (fun time hmem => ?_) ?_ rfl
  · rw [hzero, hepoch]
  · rw [hepoch, ← hzero]
    conv_rhs => rw [hzero]
    exact dueEpoch_lt_succ hpos
  · cases (List.cons.inj (hm.ticks time (List.mem_cons_of_mem _ hmem))).1
  · exact (List.append_nil _).symm

/-- The due epochs up to now are those of the retries made. -/
theorem filter_dueEpoch {e : Nat} (hi : i ≤ R) (hstart : dueEpoch t T i ≤ e) (hdue : i < R → e < dueEpoch t T (i + 1)) :
    ((List.range R).map (fun j => dueEpoch t T (j + 1))).filter (· ≤ e) =
      (List.range i).map (fun j => dueEpoch t T (j + 1)) := by
  obtain ⟨k, rfl⟩ := Nat.exists_eq_add_of_le hi
  rw [List.range_add, List.map_append, List.filter_append, List.filter_eq_self.2, List.filter_eq_nil_iff.2,
    List.append_nil]
  · intro d hd
    obtain ⟨j, hj, rfl⟩ := List.mem_map.1 hd
    obtain ⟨j, hj', rfl⟩ := List.mem_map.1 hj
    have hlt := hdue (by have := List.mem_range.1 hj'; omega)
    have hle : dueEpoch t T (i + 1) ≤ dueEpoch t T (i + j + 1) := dueEpoch_mono (by omega)
    simp only [decide_eq_true_eq]
    omega
  · intro d hd
    obtain ⟨j, hj, rfl⟩ := List.mem_map.1 hd
    have hle : dueEpoch t T (j + 1) ≤ dueEpoch t T i := dueEpoch_mono (List.mem_range.1 hj)
    simp only [decide_eq_true_eq]
    omega

/-- Between two events, the stage says what has happened by now. -/
theorem stage_between (hT : 0 < T) (h : Stage msg cb t T R past ran m) (hnil : m.stack = []) :
    resentAt msg.tag m.trace =
        past ++ ((List.range R).map (fun i => dueEpoch t T (i + 1))).filter (· ≤ m.state.epoch.toNat) ∧
      invokedAt msg.tag m.trace = ran ++ (if m.state.epoch.toNat < dueEpoch t T (R + 1) then []
        else cb.failureFns.map (fun fn => (dueEpoch t T (R + 1), false, fn))) ∧
      (m.state.callbacks.find? msg.tag = none ↔ dueEpoch t T (R + 1) ≤ m.state.epoch.toNat) := by
  cases h with
  | @waiting s stack tr' r i hf hr hsilent hstart hdue htick hresent hinvoked =>
    obtain rfl : stack = [] := hnil
    have hbefore : s.epoch.toNat < dueEpoch t T (i + 1) :=
      hdue.resolve_right (fun ⟨_, after, hmem, _⟩ => absurd hmem List.not_mem_nil)
    have hlast : s.epoch.toNat < dueEpoch t T (R + 1) := hbefore.trans_le (dueEpoch_mono (Nat.succ_le_succ hr.le))
    refine ⟨?_, ?_, ?_⟩
    · rw [filter_dueEpoch hr.le hstart (fun _ => hbefore)]
      exact hresent
    · rw [if_pos hlast, List.append_nil]
      exact hinvoked
    · rw [hf]
      constructor
      · intro hnone
        cases hnone
      · intro hle
        exact absurd hlast (Nat.not_lt.2 hle)
  | retrying => cases hnil
  | failing =>
    have hlen := congrArg List.length hnil
    simp at hlen
  | gone hf hsilent hepoch htick hresent hinvoked =>
    have hlast := dueEpoch_lt_succ (t := t) (i := R) hT
    refine ⟨?_, ?_, iff_of_true hf hepoch⟩
    · rw [filter_dueEpoch (Nat.le_refl R) (hlast.le.trans hepoch) (fun h => absurd h (Nat.lt_irrefl R))]
      exact hresent
    · rw [if_neg (Nat.not_lt.2 hepoch)]
      exact hinvoked

/-- What is sent again is the message, with its tag. -/
theorem stage_resends {m' : ApplicationConfig A F} (hlive : m.state.dead = false) (htag : msg.tag ≠ 0)
    (h : Stage msg cb t T R past ran m) (hstack : m.stack = .base (.attemptRetry msg.tag) :: rest)
    (hs : step (applicationProgram A F) m (.run drawn) = some m') : m'.state.outqueue = (m.state.queueOut msg).outqueue := by
  have hmention : (.base (.attemptRetry msg.tag) : ApplicationCall A F).Mentions msg.tag := mentions_attemptRetry.2 rfl
  have hhead : .base (.attemptRetry msg.tag) ∈ m.stack := by
    rw [hstack]
    exact List.mem_cons_self
  cases h with
  | waiting hf hr hsilent => exact absurd hmention (hsilent _ hhead)
  | gone hf hsilent => exact absurd hmention (hsilent _ hhead)
  | @retrying s under tr' r i hf hr =>
    cases step_of_eq_some hs with
    | run hw he =>
      cases he
      have hlive : s.dead = false := hlive
      show (BaseApplication.attemptRetry drawn msg.tag s).outqueue = _
      rw [BaseApplication.attemptRetry, hf]
      dsimp only
      rw [BaseApplication.send_of_live hlive, hr.message, Message.tagged, if_neg htag]
      rfl
  | @failing s above under tr' r fns done hf hr habove =>
    cases above with
    | nil => cases fns <;> cases hstack
    | cons a above =>
      obtain ⟨rfl, -⟩ := List.cons.inj hstack
      rcases habove _ List.mem_cons_self with hsend | huser
      · cases hsend
      · cases huser

end ScheduleAux

open ScheduleAux

/-- What is sent with a callback at epoch `t`, with the timeout `T` and `R` retries, while no callbacks of a record of its tag are
running, and is left waiting: between two events its message was sent again at those of the epochs `t + T (2 ^ i - 1)`, for
`i = 1, …, R`, that have come; its functions for failure ran once, at `t + T (2 ^ (R + 1) - 1)`, and none did before; and from
then on its record is gone. Every copy is given to the outbound queue as it is, with its tag. -/
theorem retransmission_schedule {address : A} {m₀ m₁ m : ApplicationConfig A F} {msg : Message A} {cb : CallbackSet F}
    {R : UInt32} {T : UInt64} {drawn : Tag} {rest : List (ApplicationCall A F)}
    (h₀ : Run (applicationProgram A F) anyStep (startApplication F address) m₀)
    (hstack : m₀.stack = .base (.send msg cb R T) :: rest) (htag : msg.tag ≠ 0) (hcb : cb.isEmpty = false) (hT : T ≠ 0)
    (hroom : m₀.state.epoch.toNat + T.toNat * 2 ^ (R.toNat + 1) < 2 ^ 64) (hfree : .base (.erase msg.tag) ∉ rest)
    (hs : step (applicationProgram A F) m₀ (.run drawn) = some m₁)
    (h : Run (applicationProgram A F) (fun m l => leftWaiting msg.tag m l = true) m₁ m) (hlive : m.state.dead = false) :
    (m.stack = [] →
      resentAt msg.tag m.trace = resentAt msg.tag m₀.trace ++
        ((List.range R.toNat).map (fun i => dueEpoch m₀.state.epoch.toNat T.toNat (i + 1))).filter (· ≤ m.state.epoch.toNat) ∧
      invokedAt msg.tag m.trace = invokedAt msg.tag m₀.trace ++
        (if m.state.epoch.toNat < dueEpoch m₀.state.epoch.toNat T.toNat (R.toNat + 1) then []
          else cb.failureFns.map (fun fn => (dueEpoch m₀.state.epoch.toNat T.toNat (R.toNat + 1), false, fn))) ∧
      (m.state.callbacks.find? msg.tag = none ↔
        dueEpoch m₀.state.epoch.toNat T.toNat (R.toNat + 1) ≤ m.state.epoch.toNat)) ∧
    ∀ rest' drawn' m', m.stack = .base (.attemptRetry msg.tag) :: rest' →
      step (applicationProgram A F) m (.run drawn') = some m' → m'.state.outqueue = (m.state.queueOut msg).outqueue := by
  have hR : R.toNat < 2 ^ 32 := R.toNat_lt
  have hpos : 0 < T.toNat := Nat.pos_of_ne_zero (fun h => hT (UInt64.toNat_inj.1 h))
  obtain ⟨app, stack, tr⟩ := m₀
  subst hstack
  have hlive₁ := live_of_run h hlive
  have h₁ := h₀.step trivial hs
  cases step_of_eq_some hs with
  | @run _ _ _ _ _ app' cs hw he =>
  have hlive₀ := live_of_step (.run hw he) hlive₁
  have hquiet : ¬ (.base (.send msg cb R T) : ApplicationCall A F).Mentions msg.tag := not_mentions_of_isEvent rfl
  obtain ⟨hresent, hinvoked⟩ := history_cons drawn tr hquiet
  have hsent := stage_sent (standing_of_run h₀ hlive₀) hlive₀ htag hcb hT hroom hfree he
    ((.base (.send msg cb R T), drawn) :: tr)
  rw [hresent, hinvoked] at hsent
  have hstage := stage_of_run hpos hR hroom h₁ hsent h hlive
  exact ⟨stage_between hpos hstage, fun rest' drawn' m' => stage_resends hlive htag hstage⟩

end Schedule

/-- The message under the tag 5. -/
def scheduledMessage : Message Nat := ⟨0, 0, 1, 5, []⟩

/-- An application that is about to send it at epoch 0. -/
def beforeSchedule (R : UInt32) (T : UInt64) : ApplicationConfig Nat Nat :=
  ⟨(startApplication Nat 0).state, [.base (.send scheduledMessage (.of 1 2) R T)], []⟩

/-- An application that has sent it at epoch 0. -/
def afterSchedule (R : UInt32) (T : UInt64) : ApplicationConfig Nat Nat :=
  ⟨(BaseApplication.send 0 scheduledMessage (.of 1 2) R T (startApplication Nat 0).state).1, [],
    [(.base (.send scheduledMessage (.of 1 2) R T), 0)]⟩

theorem run_beforeSchedule (R : UInt32) (T : UInt64) :
    Run (applicationProgram Nat Nat) anyStep (startApplication Nat 0) (beforeSchedule R T) :=
  Run.refl.step (l := .enter (.base (.send scheduledMessage (.of 1 2) R T))) trivial rfl

theorem run_afterSchedule (R : UInt32) (T : UInt64) :
    Run (applicationProgram Nat Nat) anyStep (startApplication Nat 0) (afterSchedule R T) :=
  (run_beforeSchedule R T).step (l := .run 0) trivial rfl

/-- A tick, after which so many calls run until a callback does. -/
def tickAt (time : Time) (k : Nat) : List (ApplicationLabel Nat Nat) :=
  .enter (.base (.tick time)) :: List.replicate k (.run 0)

/-- A record with one retry after one tick, sent while an earlier record of its tag was waiting: it is sent again at epoch 1 and
fails at epoch 3. -/
theorem retransmission_schedule_sample : ∃ m₀ m : ApplicationConfig Nat Nat, m₀.state.callbacks.find? 5 ≠ none ∧
    m.stack = [] ∧ m.state.epoch = 3 ∧ resentAt 5 m.trace = [1] ∧ invokedAt 5 m.trace = [(3, false, 2)] ∧
    m.state.callbacks.find? 5 = none := by
  have hr₀ := (run_afterSchedule 0 9).step (l := .enter (.base (.send scheduledMessage (.of 1 2) 1 1))) trivial rfl
  obtain ⟨m, hr, hp⟩ := exists_run_of_follow (applicationProgram Nat Nat) (leftWaiting 5)
    ⟨(BaseApplication.send 0 scheduledMessage (.of 1 2) 1 1 (afterSchedule 0 9).state).1, [],
      (.base (.send scheduledMessage (.of 1 2) 1 1), 0) :: (afterSchedule 0 9).trace⟩
    (tickAt 1 5 ++ tickAt 2 4 ++ tickAt 3 4 ++ [.leave, .run 0, .run 0])
    (fun m => m.stack.isEmpty && !m.state.dead && decide (m.state.epoch = 3)) (by decide +kernel)
  simp only [Bool.and_eq_true, List.isEmpty_iff, Bool.not_eq_true', decide_eq_true_eq] at hp
  obtain ⟨⟨hidle, hlive⟩, hepoch⟩ := hp
  have h := (retransmission_schedule hr₀ rfl (by decide) rfl (by decide) (by decide) (by decide) rfl hr hlive).1 hidle
  rw [hepoch] at h
  exact ⟨afterSchedule 0 9, m, by decide, hidle, hepoch, h.1.trans (by decide), h.2.1.trans (by decide), h.2.2.2 (by decide)⟩

/-- A message that no callback waits for. -/
def otherMessage : Message Nat := ⟨0, 0, 1, 7, []⟩

/-- What `afterSchedule` leads to when other messages are queued as well. -/
def queued (R : UInt32) (T : UInt64) (q : List (Message Nat)) (tr : ApplicationTrace Nat Nat) : ApplicationConfig Nat Nat :=
  ⟨⟨0, 0, false, [], q, (afterSchedule R T).state.callbacks⟩, [], tr⟩

/-- Other messages can be sent until the outbound queue is full. -/
theorem exists_queued (R : UInt32) (T : UInt64) {k : Nat} (hk : k < outqueueLimit) :
    ∃ q tr, Run (applicationProgram Nat Nat) (fun m l => leftWaiting 5 m l = true) (afterSchedule R T) (queued R T q tr) ∧
      q.length = k + 1 := by
  induction k with
  | zero => exact ⟨_, _, .refl, rfl⟩
  | succ k ih =>
    obtain ⟨q, tr, hr, hlen⟩ := ih (by omega)
    have hroom : q.length < outqueueLimit := by omega
    have hsend : step (applicationProgram Nat Nat) ⟨(queued R T q tr).state, [.base (.send otherMessage .empty 0 0)], tr⟩
        (.run 0) = some (queued R T (q ++ [otherMessage]) ((.base (.send otherMessage .empty 0 0), 0) :: tr)) := by
      have hqueue : (queued R T q tr).state.queueOut otherMessage = (queued R T (q ++ [otherMessage]) tr).state := if_pos hroom
      exact congrArg (fun s => some (⟨s, [], (.base (.send otherMessage .empty 0 0), 0) :: tr⟩ : ApplicationConfig Nat Nat)) hqueue
    exact ⟨_, _, (hr.step (l := .enter (.base (.send otherMessage .empty 0 0))) rfl rfl).step rfl hsend, by simp [hlen]⟩

/-- Three things upset the schedule.
1. The tag is given to another message while the first one waits: at epoch 1, when the first one is due to fail, nothing runs.
2. The callbacks of an earlier record of the tag are running: the new record is erased after them, and at epoch 2, when it is due
   to fail, nothing runs.
3. The outbound queue is full: the message is not queued again at epoch 1. -/
theorem retransmission_schedule_false :
    (∃ m₀ m₁ m : ApplicationConfig Nat Nat,
      Run (applicationProgram Nat Nat) anyStep (startApplication Nat 0) m₀ ∧
      m₀.stack = [.base (.send scheduledMessage (.of 1 2) 0 1)] ∧ scheduledMessage.tag = 5 ∧
      step (applicationProgram Nat Nat) m₀ (.run 0) = some m₁ ∧
      Run (applicationProgram Nat Nat) (fun m l => unanswered 5 m l = true) m₁ m ∧ m.stack = [] ∧ m.state.dead = false ∧
      dueEpoch m₀.state.epoch.toNat 1 1 ≤ m.state.epoch.toNat ∧ invokedAt 5 m.trace = [] ∧
      m.state.callbacks.find? 5 ≠ none) ∧
    (∃ m₀ m₁ m : ApplicationConfig Nat Nat, ∃ rest,
      Run (applicationProgram Nat Nat) anyStep (startApplication Nat 0) m₀ ∧
      m₀.stack = .base (.send scheduledMessage (.of 3 4) 0 1) :: rest ∧ .base (.erase 5) ∈ rest ∧
      step (applicationProgram Nat Nat) m₀ (.run 0) = some m₁ ∧
      Run (applicationProgram Nat Nat) (fun m l => leftWaiting 5 m l = true) m₁ m ∧ m.stack = [] ∧ m.state.dead = false ∧
      dueEpoch m₀.state.epoch.toNat 1 1 ≤ m.state.epoch.toNat ∧ invokedAt 5 m.trace = invokedAt 5 m₀.trace) ∧
    ∃ m₀ m₁ m m' : ApplicationConfig Nat Nat, ∃ rest,
      Run (applicationProgram Nat Nat) anyStep (startApplication Nat 0) m₀ ∧
      m₀.stack = [.base (.send scheduledMessage (.of 1 2) 1 1)] ∧
      step (applicationProgram Nat Nat) m₀ (.run 0) = some m₁ ∧
      Run (applicationProgram Nat Nat) (fun m l => leftWaiting 5 m l = true) m₁ m ∧ m.state.dead = false ∧
      m.stack = .base (.attemptRetry 5) :: rest ∧ step (applicationProgram Nat Nat) m (.run 0) = some m' ∧
      m.state.epoch.toNat = dueEpoch m₀.state.epoch.toNat 1 1 ∧ m'.state.outqueue = m.state.outqueue := by
  refine ⟨?_, ?_, ?_⟩
  · obtain ⟨m, hr, hp⟩ := exists_run_of_follow (applicationProgram Nat Nat) (unanswered 5) (afterSchedule 0 1)
      ([.enter (.base (.send { scheduledMessage with destination := 2 } (.of 3 4) 0 9)), .run 0] ++ tickAt 1 4)
      (fun m => m.stack.isEmpty && !m.state.dead && decide (dueEpoch 0 1 1 ≤ m.state.epoch.toNat) &&
        decide (invokedAt 5 m.trace = []) && (m.state.callbacks.find? 5).isSome) (by decide +kernel)
    simp only [Bool.and_eq_true, List.isEmpty_iff, Bool.not_eq_true', decide_eq_true_eq] at hp
    obtain ⟨⟨⟨⟨hidle, hlive⟩, hdue⟩, hinvoked⟩, hthere⟩ := hp
    exact ⟨_, _, m, run_beforeSchedule 0 1, rfl, rfl, rfl, hr, hidle, hlive, hdue, hinvoked,
      Option.isSome_iff_ne_none.1 hthere⟩
  · obtain ⟨m₀, hr₀, hp₀⟩ := exists_run_of_follow (applicationProgram Nat Nat) (fun _ _ => true) (afterSchedule 0 1)
      (tickAt 1 4 ++ [.enter (.base (.send scheduledMessage (.of 3 4) 0 1))])
      (fun m₀ => decide (m₀.stack = [.base (.send scheduledMessage (.of 3 4) 0 1), .userCode, .base (.erase 5),
        .base (.overdue (some 5))]) &&
        ((step (applicationProgram Nat Nat) m₀ (.run 0)).any fun m₁ : ApplicationConfig Nat Nat =>
          (follow (applicationProgram Nat Nat) (leftWaiting 5) m₁ ([.leave, .run 0, .run 0] ++ tickAt 2 3)).any
            fun m : ApplicationConfig Nat Nat => m.stack.isEmpty && !m.state.dead &&
              decide (dueEpoch m₀.state.epoch.toNat 1 1 ≤ m.state.epoch.toNat) &&
              decide (invokedAt 5 m.trace = invokedAt 5 m₀.trace))) (by decide +kernel)
    simp only [Bool.and_eq_true, List.isEmpty_iff, Bool.not_eq_true', decide_eq_true_eq, Option.any_eq_true] at hp₀
    obtain ⟨hstack, m₁, hs, m, hr, ⟨⟨hidle, hlive⟩, hdue⟩, hinvoked⟩ := hp₀
    exact ⟨m₀, m₁, m, _, (run_afterSchedule 0 1).trans (run_anyStep hr₀), hstack, by decide, hs, run_of_follow hr, hidle,
      hlive, hdue, hinvoked⟩
  · obtain ⟨q, tr, hr, hlen⟩ := exists_queued 1 1 (k := outqueueLimit - 1) (by decide)
    have hfull : ¬q.length < outqueueLimit := Nat.not_lt.2 hlen.ge
    have hdue : follow (applicationProgram Nat Nat) (leftWaiting 5) (queued 1 1 q tr) (tickAt 1 3) =
        some ⟨⟨0, 1, false, [], q, (afterSchedule 1 1).state.callbacks⟩, [.base (.attemptRetry 5), .base (.overdue (some 5))],
          [(.base (.overdue none), 0), (.base .drain, 0), (.base (.tick 1), 0)] ++ tr⟩ := rfl
    have hdropped : (⟨0, 1, false, [], q, (afterSchedule 1 1).state.callbacks⟩ : BaseApplication Nat Nat).queueOut
        scheduledMessage = ⟨0, 1, false, [], q, (afterSchedule 1 1).state.callbacks⟩ := if_neg hfull
    refine ⟨_, _, _, _, _, run_beforeSchedule 1 1, rfl, rfl, hr.trans (run_of_follow hdue), rfl, rfl, rfl, rfl, ?_⟩
    show ((⟨0, 1, false, [], q, (afterSchedule 1 1).state.callbacks⟩ : BaseApplication Nat Nat).queueOut
      scheduledMessage).outqueue = q
    rw [hdropped]

end Dhtsim
