import Dhtsim.Lemmas.Discipline

/-!
# What waits for a tag

Whatever tags are used: while an application lives, a call on its stack that runs a callback of a tag, sends its message again
or erases its record was made for a record of that tag, which is still there. And below a call that looks at the records there
is no such call. The epoch of the application is the time of its last tick.
-/

namespace Dhtsim

open CallMachine

section Mentions

variable {A F : Type}

/-- The call runs a callback of the tag, sends its message again, or erases its record. -/
def ApplicationCall.Mentions (tag : Tag) (c : ApplicationCall A F) : Prop :=
  c.invokes tag ≠ [] ∨ c.resends = some tag ∨ c.erases = some tag

/-- The time of the last tick. -/
def lastTick : ApplicationTrace A F → Time
  | [] => 0
  | (.base (.tick time), _) :: _ => time
  | _ :: tr => lastTick tr

/-- Below a call that looks at the records nothing is about one. -/
def SilentBelow (stack : List (ApplicationCall A F)) : Prop :=
  stack.Pairwise (fun x y => x.isOuter = true → ∀ tag, ¬ y.Mentions tag)

/-- The record of a callback that waits is erased later. -/
def ErasedLater : List (ApplicationCall A F) → Prop
  | [] => True
  | c :: rest => (∀ tag, c.invokes tag ≠ [] → .base (.erase tag) ∈ rest) ∧ ErasedLater rest

/-- What holds of every configuration of a live application. -/
structure Standing (m : ApplicationConfig A F) : Prop where
  silent : SilentBelow m.stack
  resends : ∀ x ∈ m.stack.tail, x.resends = none
  erased : ErasedLater m.stack
  held : ∀ tag, ∀ c ∈ m.stack, c.Mentions tag → ∃ r, m.state.callbacks.find? tag = some r
  keyed : ∀ tag r, m.state.callbacks.find? tag = some r → r.message.tag = tag
  ticks : ∀ t, .base (.tick t) ∈ m.stack → m.stack = [.base (.tick t)]
  clock : m.state.epoch = lastTick m.trace

variable {tag drawn : Tag} {c : ApplicationCall A F} {app app' : BaseApplication A F} {cs rest : List (ApplicationCall A F)}
  {tr : ApplicationTrace A F}

theorem mentions_callback {ok : Bool} {fn : F} {q : Message A} :
    (.base (.callback ok fn q) : ApplicationCall A F).Mentions tag ↔ q.tag = tag := by
  simp [ApplicationCall.Mentions, ApplicationCall.invokes, ApplicationCall.resends, ApplicationCall.erases]

theorem mentions_erase {t : Tag} : (.base (.erase t) : ApplicationCall A F).Mentions tag ↔ t = tag := by
  simp [ApplicationCall.Mentions, ApplicationCall.invokes, ApplicationCall.resends, ApplicationCall.erases]

theorem mentions_attemptRetry {t : Tag} : (.base (.attemptRetry t) : ApplicationCall A F).Mentions tag ↔ t = tag := by
  simp [ApplicationCall.Mentions, ApplicationCall.invokes, ApplicationCall.resends, ApplicationCall.erases]

theorem not_mentions_overdue {after : Option Tag} : ¬ (.base (.overdue after) : ApplicationCall A F).Mentions tag := by
  simp [ApplicationCall.Mentions, ApplicationCall.invokes, ApplicationCall.resends, ApplicationCall.erases]

/-- What comes in, or is sent by a callback, is about no record. -/
theorem not_mentions_of_isEvent (hc : c.isEvent = true) : ¬ c.Mentions tag := by
  cases c with
  | userCode => cases hc
  | base b =>
    cases b with
    | callback | erase | attemptRetry => cases hc
    | _ => simp [ApplicationCall.Mentions, ApplicationCall.invokes, ApplicationCall.resends, ApplicationCall.erases]

theorem ErasedLater.mem_erase {l : List (ApplicationCall A F)} (h : ErasedLater l) (hc : c ∈ l) (hinvokes : c.invokes tag ≠ []) :
    .base (.erase tag) ∈ l := by
  induction l with
  | nil => cases hc
  | cons x l ih =>
    rcases List.mem_cons.1 hc with rfl | hc
    · exact List.mem_cons_of_mem _ (h.1 tag hinvokes)
    · exact List.mem_cons_of_mem _ (ih h.2 hc)

/-- Calls that run no callback change nothing about it. -/
theorem erasedLater_append (hcs : ∀ x ∈ cs, ∀ tag, x.invokes tag = []) (h : ErasedLater rest) : ErasedLater (cs ++ rest) := by
  induction cs with
  | nil => exact h
  | cons x cs ih =>
    refine ⟨fun tag hne => absurd (hcs x List.mem_cons_self tag) hne, ih ?_⟩
    exact fun y hy => hcs y (List.mem_cons_of_mem _ hy)

/-- The callbacks of a record wait above its erasure. -/
theorem erasedLater_callbacks (ok : Bool) (fns : List F) {q : Message A} (hmem : .base (.erase q.tag) ∈ rest)
    (h : ErasedLater rest) : ErasedLater (fns.map (fun fn => .base (.callback ok fn q)) ++ rest) := by
  induction fns with
  | nil => exact h
  | cons fn fns ih =>
    refine ⟨fun tag hne => ?_, ih⟩
    obtain rfl : q.tag = tag := mentions_callback.1 (Or.inl hne)
    exact List.mem_append_right _ hmem

/-- Where no record of the tag is being erased, and no call looks at one, nothing that waits is about the tag. -/
theorem Standing.not_mentions {m : ApplicationConfig A F} (h : Standing m) (hstack : m.stack = c :: rest)
    (herase : .base (.erase tag) ∉ rest) : ∀ x ∈ rest, ¬ x.Mentions tag := by
  have hresends := h.resends
  have herased := h.erased
  rw [hstack] at hresends herased
  rintro x hx (hinvokes | hresend | herases)
  · exact herase (herased.2.mem_erase hx hinvokes)
  · rw [hresends x hx] at hresend
    cases hresend
  · unfold ApplicationCall.erases at herases
    split at herases
    · cases herases
      exact herase hx
    · cases herases

namespace BaseApplication

/-- A call is made for a tag by the loop over the records, for a record that is due, or when a message of that tag finds its
record. -/
theorem makes_mentions (h : execCall drawn c app = some (app', cs)) (hlive : app.dead = false)
    (hkeyed : ∀ tag r, app.callbacks.find? tag = some r → r.message.tag = tag) {x : ApplicationCall A F} (hx : x ∈ cs)
    (hm : x.Mentions tag) :
    ∃ r, app.callbacks.find? tag = some r ∧
      ((∃ after, c = .base (.overdue after) ∧ app.callbacks.next after = some (tag, r) ∧ r.nextSend ≤ app.epoch) ∨
        ∃ q, c = .base (.receive q) ∧ q.tag = tag) := by
  by_cases hover : ∃ after, c = .base (.overdue after)
  · obtain ⟨after, rfl⟩ := hover
    obtain ⟨-, ⟨-, rfl⟩ | ⟨t, r, hn, hcases⟩⟩ := overdue_cases after h
    · cases hx
    · have hf := SortedMap.find?_eq_some_iff.2 (SortedMap.mem_of_next hn)
      have hsame : t = tag → ∃ r, app.callbacks.find? tag = some r ∧ app.callbacks.next after = some (tag, r) := by
        rintro rfl
        exact ⟨r, hf, hn⟩
      rcases hcases with ⟨-, rfl⟩ | ⟨hdue, -, rfl⟩ | ⟨hdue, -, rfl⟩
      · rw [List.mem_singleton.1 hx] at hm
        exact absurd hm not_mentions_overdue
      · rcases List.mem_pair.1 hx with rfl | rfl
        · obtain rfl := mentions_attemptRetry.1 hm
          exact ⟨r, hf, Or.inl ⟨after, rfl, hn, hdue⟩⟩
        · exact absurd hm not_mentions_overdue
      · rcases List.mem_append.1 hx with hx | hx
        · obtain ⟨fn, -, rfl⟩ := List.mem_map.1 hx
          obtain rfl := (hkeyed t r hf).symm.trans (mentions_callback.1 hm)
          exact ⟨r, hf, Or.inl ⟨after, rfl, hn, hdue⟩⟩
        · rcases List.mem_pair.1 hx with rfl | rfl
          · obtain rfl := mentions_erase.1 hm
            exact ⟨r, hf, Or.inl ⟨after, rfl, hn, hdue⟩⟩
          · exact absurd hm not_mentions_overdue
  by_cases hrec : ∃ q, c = .base (.receive q)
  · obtain ⟨q, rfl⟩ := hrec
    obtain ⟨-, ⟨-, rfl⟩ | ⟨r, hf, rfl⟩⟩ := receive_cases h
    · cases hx
    · have htag : q.tag = tag := by
        rcases List.mem_append.1 hx with hx | hx
        · obtain ⟨fn, -, rfl⟩ := List.mem_map.1 hx
          exact mentions_callback.1 hm
        · rw [List.mem_singleton.1 hx] at hm
          exact mentions_erase.1 hm
      exact ⟨r, htag ▸ hf, Or.inr ⟨q, rfl, htag⟩⟩
  · obtain ⟨h1, h2, h3, -⟩ := makes_quiet h hlive (fun after hc => hover ⟨after, hc⟩) (fun q hc => hrec ⟨q, hc⟩) x hx
    rcases hm with hm | hm | hm
    · exact absurd (h2 tag) hm
    · rw [h3] at hm
      cases hm
    · rw [h1] at hm
      cases hm

/-- The records change where a message with a callback is sent, where a record is erased, and where a retry is counted. -/
theorem callbacks_cases (h : execCall drawn c app = some (app', cs)) : app'.callbacks = app.callbacks ∨
    (∃ q cb mr t, c = .base (.send q cb mr t) ∧ cb.isEmpty = false ∧ app'.callbacks = app.callbacks.insert (q.tagged drawn).tag
      (SentMessage.new (q.tagged drawn) cb app.epoch (if t = 0 then defaultTimeout else t) mr)) ∨
    (∃ tag, c = .base (.erase tag) ∧ app'.callbacks = app.callbacks.erase tag) ∨
    ∃ tag r, c = .base (.attemptRetry tag) ∧ app.callbacks.find? tag = some r ∧
      app'.callbacks = app.callbacks.insert tag (r.retry app.epoch) := by
  cases c with
  | userCode => cases h
  | base b =>
    have happ : app'.callbacks = (exec drawn b app).1.callbacks := by
      cases b <;> cases h <;> rfl
    rw [happ]
    rcases exec_callbacks drawn b app with hsame | ⟨q, cb, mr, t, rfl, -, hcb, he⟩ | ⟨tag, rfl, he⟩ | ⟨tag, r, rfl, hf, he⟩
    · exact Or.inl hsame
    · exact Or.inr (Or.inl ⟨q, cb, mr, t, rfl, hcb, he⟩)
    · exact Or.inr (Or.inr (Or.inl ⟨tag, rfl, he⟩))
    · exact Or.inr (Or.inr (Or.inr ⟨tag, r, rfl, hf, he⟩))

/-- The record of a tag stays as it is, unless it is replaced, erased, or its message is sent again. -/
theorem find?_execCall (h : execCall drawn c app = some (app', cs)) (hm : ¬ c.Mentions tag)
    (hsend : ∀ q cb mr t, c = .base (.send q cb mr t) → cb.isEmpty = true ∨ (q.tagged drawn).tag ≠ tag) :
    app'.callbacks.find? tag = app.callbacks.find? tag := by
  rcases callbacks_cases h with he | ⟨q, cb, mr, t, rfl, hcb, he⟩ | ⟨t, rfl, he⟩ | ⟨t, r, rfl, -, he⟩
  · rw [he]
  · have htag := (hsend q cb mr t rfl).resolve_left (by simp [hcb])
    rw [he, SortedMap.find?_insert_of_ne _ _ (Ne.symm htag)]
  · rw [he, SortedMap.find?_erase_of_ne _ (fun heq => hm (mentions_erase.2 heq.symm))]
  · rw [he, SortedMap.find?_insert_of_ne _ _ (fun heq => hm (mentions_attemptRetry.2 heq.symm))]

/-- A record stays, as long as it is not erased. -/
theorem exists_execCall {r : SentMessage A F} (h : execCall drawn c app = some (app', cs)) (herase : c.erases ≠ some tag)
    (hf : app.callbacks.find? tag = some r) : ∃ r', app'.callbacks.find? tag = some r' := by
  rcases callbacks_cases h with he | ⟨q, cb, mr, t, rfl, -, he⟩ | ⟨t, rfl, he⟩ | ⟨t, r', rfl, -, he⟩
  · exact ⟨r, he ▸ hf⟩
  · rw [he]
    exact SortedMap.exists_find?_insert ⟨r, hf⟩ _ _
  · rw [he, SortedMap.find?_erase_of_ne _ (fun heq => herase (congrArg some heq.symm))]
    exact ⟨r, hf⟩
  · rw [he]
    exact SortedMap.exists_find?_insert ⟨r, hf⟩ _ _

/-- Records are kept under the tags of their messages. -/
theorem keyed_execCall (h : execCall drawn c app = some (app', cs))
    (hkeyed : ∀ tag r, app.callbacks.find? tag = some r → r.message.tag = tag) :
    ∀ tag r, app'.callbacks.find? tag = some r → r.message.tag = tag := by
  intro tag r hf
  rcases callbacks_cases h with he | ⟨q, cb, mr, t, rfl, -, he⟩ | ⟨t, rfl, he⟩ | ⟨t, r', rfl, hold, he⟩
  · exact hkeyed tag r (he ▸ hf)
  · rw [he] at hf
    by_cases htag : tag = (q.tagged drawn).tag
    · rw [htag, SortedMap.find?_insert_self] at hf
      cases hf
      exact htag.symm
    · rw [SortedMap.find?_insert_of_ne _ _ htag] at hf
      exact hkeyed tag r hf
  · rw [he, SortedMap.find?_erase] at hf
    split_ifs at hf
    exact hkeyed tag r hf
  · rw [he, SortedMap.find?_insert] at hf
    split_ifs at hf with htag
    · cases hf
      exact (hkeyed t r' hold).trans htag.symm
    · exact hkeyed tag r hf

/-- Only a tick changes the epoch. -/
theorem epoch_execCall (h : execCall drawn c app = some (app', cs)) (hlive : app.dead = false) :
    (∃ t, c = .base (.tick t) ∧ app'.epoch = t) ∨ (∀ t, c ≠ .base (.tick t)) ∧ app'.epoch = app.epoch := by
  cases c with
  | userCode => cases h
  | base b =>
    have happ : app'.epoch = (exec drawn b app).1.epoch := by
      cases b <;> cases h <;> rfl
    rw [happ]
    by_cases htick : ∃ t, b = .tick t
    · obtain ⟨t, rfl⟩ := htick
      exact Or.inl ⟨t, rfl, by simp [exec, hlive]⟩
    · refine Or.inr ⟨?_, (exec_epoch drawn b app).resolve_left ?_⟩
      · rintro t ⟨⟩
        exact htick ⟨t, rfl⟩
      · rintro ⟨t, ht, -⟩
        exact htick ⟨t, ht⟩

/-- What a call of a live application makes says nothing of a tag below what looks at the records. -/
theorem makes_silent (h : execCall drawn c app = some (app', cs)) (hlive : app.dead = false) : SilentBelow cs := by
  have hcallbacks : ∀ (ok : Bool) (fns : List F) (m : Message A) (tail : List (ApplicationCall A F)), SilentBelow tail →
      SilentBelow (fns.map (fun fn => .base (.callback ok fn m)) ++ tail) := by
    intro ok fns m tail ht
    refine List.pairwise_append.2 ⟨List.pairwise_map.2 (List.pairwise_of_forall (fun _ _ h => by cases h)), ht, ?_⟩
    intro x hx y _ hout
    obtain ⟨fn, -, rfl⟩ := List.mem_map.1 hx
    cases hout
  by_cases hover : ∃ after, c = .base (.overdue after)
  · obtain ⟨after, rfl⟩ := hover
    obtain ⟨-, ⟨-, rfl⟩ | ⟨tag, r, -, ⟨-, rfl⟩ | ⟨-, -, rfl⟩ | ⟨-, -, rfl⟩⟩⟩ := overdue_cases after h
    · exact List.Pairwise.nil
    · exact List.pairwise_singleton _ _
    · exact List.pairwise_pair.2 (fun _ _ => not_mentions_overdue)
    · exact hcallbacks _ _ _ _ (List.pairwise_pair.2 (fun _ _ => not_mentions_overdue))
  by_cases hrec : ∃ m, c = .base (.receive m)
  · obtain ⟨m, rfl⟩ := hrec
    obtain ⟨-, ⟨-, rfl⟩ | ⟨r, -, rfl⟩⟩ := receive_cases h
    · exact List.Pairwise.nil
    · exact hcallbacks _ _ _ _ (List.pairwise_singleton _ _)
  · refine List.pairwise_of_forall_mem_list (fun x _ y hy _ tag hm => ?_)
    obtain ⟨h1, h2, h3, -⟩ := makes_quiet h hlive (fun after hc => hover ⟨after, hc⟩) (fun m hc => hrec ⟨m, hc⟩) y hy
    rcases hm with hm | hm | hm
    · exact hm (h2 tag)
    · rw [h3] at hm
      cases hm
    · rw [h1] at hm
      cases hm

/-- What a call of a live application makes erases the records whose callbacks it runs. -/
theorem makes_erasedLater (h : execCall drawn c app = some (app', cs)) (hlive : app.dead = false)
    (hkeyed : ∀ tag r, app.callbacks.find? tag = some r → r.message.tag = tag) (hrest : ErasedLater rest) :
    ErasedLater (cs ++ rest) := by
  by_cases hover : ∃ after, c = .base (.overdue after)
  · obtain ⟨after, rfl⟩ := hover
    obtain ⟨-, ⟨-, rfl⟩ | ⟨tag, r, hn, ⟨-, rfl⟩ | ⟨-, -, rfl⟩ | ⟨-, -, rfl⟩⟩⟩ := overdue_cases after h
    · exact hrest
    · exact erasedLater_append (by simp [ApplicationCall.invokes]) hrest
    · exact erasedLater_append (by simp [ApplicationCall.invokes]) hrest
    · have htag := hkeyed tag r (SortedMap.find?_eq_some_iff.2 (SortedMap.mem_of_next hn))
      rw [List.append_assoc, ← htag]
      exact erasedLater_callbacks _ _ List.mem_cons_self (erasedLater_append (by simp [ApplicationCall.invokes]) hrest)
  by_cases hrec : ∃ m, c = .base (.receive m)
  · obtain ⟨m, rfl⟩ := hrec
    obtain ⟨-, ⟨-, rfl⟩ | ⟨r, -, rfl⟩⟩ := receive_cases h
    · exact hrest
    · rw [List.append_assoc]
      exact erasedLater_callbacks _ _ List.mem_cons_self (erasedLater_append (by simp [ApplicationCall.invokes]) hrest)
  · have hquiet := makes_quiet h hlive (fun after hc => hover ⟨after, hc⟩) (fun m hc => hrec ⟨m, hc⟩)
    exact erasedLater_append (fun x hx => (hquiet x hx).2.1) hrest

/-- No call makes a tick. -/
theorem makes_no_tick (h : execCall drawn c app = some (app', cs)) : ∀ t, .base (.tick t) ∉ cs := by
  intro t hx
  cases c with
  | userCode => cases h
  | base b =>
    cases b with
    | overdue after =>
      obtain ⟨-, ⟨-, rfl⟩ | ⟨tag, r, -, ⟨-, rfl⟩ | ⟨-, -, rfl⟩ | ⟨-, -, rfl⟩⟩⟩ := overdue_cases after h <;> simp at hx
    | receive m =>
      obtain ⟨-, ⟨-, rfl⟩ | ⟨r, -, rfl⟩⟩ := receive_cases h <;> simp at hx
    | tick t' =>
      cases h
      simp only [exec] at hx
      split at hx <;> simp at hx
    | drain =>
      cases h
      simp only [exec] at hx
      split at hx <;> simp at hx
    | send m cb mr time =>
      cases h
      simp only [exec, send] at hx
      split at hx <;> simp at hx
    | _ =>
      cases h
      simp [exec] at hx

end BaseApplication

open BaseApplication

theorem standing_exec (h : Standing ⟨app, c :: rest, tr⟩) (he : execCall drawn c app = some (app', cs))
    (hlive : app.dead = false) : Standing ⟨app', cs ++ rest, (c, drawn) :: tr⟩ := by
  obtain ⟨hc, hrest⟩ := List.pairwise_cons.1 h.silent
  refine ⟨?_, (resends_step h.resends hlive he).1, makes_erasedLater he hlive h.keyed h.erased.2, fun tag x hx hm => ?_,
    keyed_execCall he h.keyed, fun t ht => ?_, ?_⟩
  · refine List.pairwise_append.2 ⟨makes_silent he hlive, hrest, fun x hx y hy hout => hc y hy ?_⟩
    exact (makes_inOrder he hlive).2 x hx hout
  · rcases List.mem_append.1 hx with hx | hx
    · obtain ⟨r, hf, hcase⟩ := makes_mentions he hlive h.keyed hx hm
      refine exists_execCall he ?_ hf
      rcases hcase with ⟨after, rfl, -⟩ | ⟨q, rfl, -⟩ <;> simp [ApplicationCall.erases]
    · obtain ⟨r, hf⟩ := h.held tag x (List.mem_cons_of_mem _ hx) hm
      refine exists_execCall he (fun herase => ?_) hf
      have hout : c.isOuter = true := by
        unfold ApplicationCall.erases at herase
        split at herase
        · rfl
        · cases herase
      exact hc x hx hout tag hm
  · rcases List.mem_append.1 ht with hmade | hunder
    · exact absurd hmade (makes_no_tick he t)
    · obtain ⟨-, hnil⟩ := List.cons.inj (h.ticks t (List.mem_cons_of_mem _ hunder))
      rw [hnil] at hunder
      cases hunder
  · have hclock : app.epoch = lastTick tr := h.clock
    rcases epoch_execCall he hlive with ⟨t, rfl, hepoch⟩ | ⟨hne, hepoch⟩
    · exact hepoch
    · refine (hepoch.trans hclock).trans ?_
      cases c with
      | userCode => rfl
      | base b =>
        cases b with
        | tick t => exact absurd rfl (hne t)
        | _ => rfl

/-- Every configuration of a live application is such. -/
theorem standing_of_run {address : A} {m : ApplicationConfig A F}
    (h : Run (applicationProgram A F) anyStep (startApplication F address) m) (hlive : m.state.dead = false) : Standing m := by
  refine h.invariant (I := fun m => m.state.dead = false → Standing m) (fun _ => ⟨List.Pairwise.nil, ?_, trivial, ?_, ?_, ?_, rfl⟩)
    ?_ hlive
  · intro x hx
    cases hx
  · intro tag c hc
    cases hc
  · intro tag r hf
    cases hf
  · intro t ht
    cases ht
  · intro m l m' _ hI _ hs hlive'
    have hlive := live_of_step hs hlive'
    cases hs with
    | run hw he => exact standing_exec (hI hlive) he hlive
    | @event c app tr hc =>
      have hm := hI hlive
      refine ⟨List.pairwise_singleton _ _, nofun, ⟨fun tag hne => absurd (Or.inl hne) (not_mentions_of_isEvent hc), trivial⟩,
        fun tag x hx hmention => ?_, hm.keyed, fun t ht => ?_, hm.clock⟩
      · rw [List.mem_singleton.1 hx] at hmention
        exact absurd hmention (not_mentions_of_isEvent hc)
      · rw [List.mem_singleton.1 ht]
    | @reentry c f rest app tr hf hc =>
      have hm := hI hlive
      obtain ⟨q, cb, mr, t, rfl⟩ := eq_send_of_reentry hc
      refine ⟨List.pairwise_cons.2 ⟨fun y _ hout => ?_, hm.silent⟩, fun x hx => ?_, ⟨fun tag hne => absurd rfl hne, hm.erased⟩,
        fun tag x hx hmention => ?_, hm.keyed, fun t ht => ?_, hm.clock⟩
      · cases hout
      · rcases List.mem_cons.1 hx with rfl | hx
        · cases x with
          | userCode => rfl
          | base b => cases hf
        · exact hm.resends x hx
      · rcases List.mem_cons.1 hx with rfl | hx
        · exact absurd hmention (not_mentions_of_isEvent rfl)
        · exact hm.held tag x hx hmention
      · rcases List.mem_cons.1 ht with ht | ht
        · cases ht
        · obtain ⟨rfl, -⟩ := List.cons.inj (hm.ticks t ht)
          cases hf
    | @leave f rest app tr hf =>
      have hm := hI hlive
      refine ⟨(List.pairwise_cons.1 hm.silent).2, fun x hx => hm.resends x (List.mem_of_mem_tail hx), hm.erased.2,
        fun tag x hx => hm.held tag x (List.mem_cons_of_mem _ hx), hm.keyed, fun t ht => ?_, hm.clock⟩
      obtain ⟨rfl, -⟩ := List.cons.inj (hm.ticks t (List.mem_cons_of_mem _ ht))
      cases hf

end Mentions

end Dhtsim
