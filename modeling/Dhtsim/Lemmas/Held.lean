import Dhtsim.Lemmas.CallGraph

/-!
# What a node holds after a call

Where the records of sent messages, the pings in progress and the functions of pings come from: whatever a node or a call
holds after a step was held before, or was made in that step.
-/

namespace Dhtsim

namespace CallbackSet

variable {F : Type}

/-- All functions of a set. -/
def all (c : CallbackSet F) : List F := c.successFns ++ c.failureFns

theorem mem_all {c : CallbackSet F} {fn : F} : fn ∈ c.all ↔ fn ∈ c.successFns ∨ fn ∈ c.failureFns := List.mem_append

theorem mem_all_add {c other : CallbackSet F} {fn : F} (h : fn ∈ (c.add other).all) : fn ∈ c.all ∨ fn ∈ other.all := by
  simp only [all, add, List.mem_append] at h ⊢
  tauto

theorem all_of_isEmpty {c : CallbackSet F} (h : c.isEmpty = true) : c.all = [] := by
  simp only [isEmpty, Bool.and_eq_true, List.isEmpty_iff] at h
  rw [all, h.1, h.2]
  rfl

end CallbackSet

namespace BaseApplication

variable {A F : Type}

/-- The records change where a message with a callback is sent, where a record is erased, and where a retry is counted. -/
theorem exec_callbacks (drawn : Tag) (c : BaseCall A F) (app : BaseApplication A F) :
    (exec drawn c app).1.callbacks = app.callbacks ∨
      (∃ m cb mr t, c = .send m cb mr t ∧ app.dead = false ∧ cb.isEmpty = false ∧
        (exec drawn c app).1.callbacks = app.callbacks.insert (m.tagged drawn).tag
          (SentMessage.new (m.tagged drawn) cb app.epoch (if t = 0 then defaultTimeout else t) mr)) ∨
      (∃ tag, c = .erase tag ∧ (exec drawn c app).1.callbacks = app.callbacks.erase tag) ∨
      ∃ tag r, c = .attemptRetry tag ∧ app.callbacks.find? tag = some r ∧
        (exec drawn c app).1.callbacks = app.callbacks.insert tag (r.retry app.epoch) := by
  cases c with
  | tick time => left; simp only [exec]; split <;> rfl
  | drain => left; simp only [exec]; split <;> rfl
  | overdue after => left; simp only [exec]; (repeat' split) <;> rfl
  | attemptRetry tag =>
    simp only [exec, attemptRetry]
    cases hf : app.callbacks.find? tag with
    | none => exact Or.inl rfl
    | some r =>
      refine Or.inr (Or.inr (Or.inr ⟨tag, r, rfl, hf, ?_⟩))
      have he := send_empty_callbacks app drawn r.message 16 0
      have hepoch : (app.send drawn r.message .empty 16 0).1.epoch = app.epoch := by rw [send_eq]
      simp only [he, hepoch]
  | send m cb mr t =>
    simp only [exec]
    cases hd : app.dead with
    | true => left; rw [send_of_dead hd]
    | false =>
      cases hcb : cb.isEmpty with
      | true => left; rw [send_of_live hd, queueOut_eq]; simp [register, hcb]
      | false =>
        refine Or.inr (Or.inl ⟨m, cb, mr, t, rfl, rfl, hcb, ?_⟩)
        rw [send_of_live hd, queueOut_eq]
        simp [register, hcb]
  | receive m => left; simp only [exec]; split <;> rfl
  | erase tag => exact Or.inr (Or.inr (Or.inl ⟨tag, rfl, rfl⟩))
  | recv m => left; simp only [exec]; rw [queueIn_eq]
  | _ => exact Or.inl rfl

end BaseApplication

namespace KademliaNode

variable {Γ : Ctx} {ch : Choice} {c : Call} {n n' : KademliaNode} {p : KademliaNode × List Call}

/-- The records of a node change where its base changes them. -/
theorem exec_callbacks (h : exec Γ ch c n = some p) :
    p.1.callbacks = n.callbacks ∨
      (∃ m cb mr t, c = .base (.send m cb mr t) ∧ n.dead = false ∧ cb.isEmpty = false ∧
        p.1.callbacks = n.callbacks.insert (m.tagged ch.tag).tag
          (SentMessage.new (m.tagged ch.tag) cb n.epoch (if t = 0 then defaultTimeout else t) mr)) ∨
      (∃ tag, c = .base (.erase tag) ∧ p.1.callbacks = n.callbacks.erase tag) ∨
      ∃ tag r, c = .base (.attemptRetry tag) ∧ n.callbacks.find? tag = some r ∧
        p.1.callbacks = n.callbacks.insert tag (r.retry n.epoch) := by
  by_cases hb : ∃ b, c = .base b ∧ (∀ m, b ≠ .handleMessage m) ∧ ∀ ok fn m, b ≠ .callback ok fn m
  · obtain ⟨b, rfl, h1, h2⟩ := hb
    cases h
    rw [execBase_eq h1 h2]
    rcases BaseApplication.exec_callbacks ch.tag b n.toBaseApplication with
      h | ⟨m, cb, mr, t, rfl, h⟩ | ⟨tag, rfl, h⟩ | ⟨tag, r, rfl, h⟩
    · exact Or.inl h
    · exact Or.inr (Or.inl ⟨m, cb, mr, t, rfl, h⟩)
    · exact Or.inr (Or.inr (Or.inl ⟨tag, rfl, h⟩))
    · exact Or.inr (Or.inr (Or.inr ⟨tag, r, rfl, h⟩))
  · left
    obtain ⟨n', cs⟩ := p
    have hch : Changes n c n' := exec_changes h
    cases hch with
    | base drawn h1 h2 => exact absurd ⟨_, rfl, h1, h2⟩ hb
    | _ => rfl

/-- A record after a call is one from before, perhaps retried, or that of the message just sent. -/
theorem exec_record (h : exec Γ ch c n = some p) {tag : Tag} {r' : SentMessage UInt32 SendFn}
    (hr : (tag, r') ∈ p.1.callbacks.entries) :
    (∃ r, (tag, r) ∈ n.callbacks.entries ∧ r'.message = r.message ∧ r'.callback = r.callback) ∨
      ∃ m mr t, c = .base (.send m r'.callback mr t) ∧ n.dead = false ∧ r'.callback.isEmpty = false ∧
        tag = (m.tagged ch.tag).tag ∧ r'.message = m.tagged ch.tag := by
  rcases exec_callbacks h with he | ⟨m, cb, mr, t, rfl, hd, hcb, he⟩ | ⟨tag', -, he⟩ | ⟨tag', r, -, hf, he⟩
  · exact Or.inl ⟨r', he ▸ hr, rfl, rfl⟩
  · rw [he, SortedMap.mem_entries_insert] at hr
    rcases hr with hr | ⟨hr, -⟩
    · cases hr
      exact Or.inr ⟨m, mr, t, rfl, hd, hcb, rfl, rfl⟩
    · exact Or.inl ⟨r', hr, rfl, rfl⟩
  · rw [he, SortedMap.mem_entries_erase] at hr
    exact Or.inl ⟨r', hr.1, rfl, rfl⟩
  · rw [he, SortedMap.mem_entries_insert] at hr
    rcases hr with hr | ⟨hr, -⟩
    · cases hr
      exact Or.inl ⟨r, SortedMap.find?_eq_some_iff.1 hf, rfl, rfl⟩
    · exact Or.inl ⟨r', hr, rfl, rfl⟩

/-! ## The functions of pings -/

end KademliaNode

/-- The functions of pings that a function captured. -/
def SendFn.pingFns : SendFn → List PingFn
  | .pingSuccess _ cb => cb.all
  | .pingFailure _ cb => cb.all
  | .findSuccess _ _ => []
  | .findFailure _ _ => []

/-- The functions of pings that a call carries. -/
def Call.pingFns : Call → List PingFn
  | .base (.send _ cb _ _) => cb.all.flatMap SendFn.pingFns
  | .base (.callback _ fn _) => fn.pingFns
  | .ping _ cb => cb.all
  | .pinged _ fn => [fn]
  | _ => []

namespace KademliaNode

/-- The functions of pings that a node holds: in its records and in its pings in progress. -/
def pingFns (n : KademliaNode) : List PingFn :=
  n.callbacks.entries.flatMap (fun e => e.2.callback.all.flatMap SendFn.pingFns) ++
    n.pingsInProgress.entries.flatMap (fun e => e.2.all)

variable {Γ : Ctx} {ch : Choice} {c : Call} {n n' : KademliaNode} {p : KademliaNode × List Call} {fn : PingFn}

theorem mem_pingFns : fn ∈ n.pingFns ↔
    (∃ tag r f, (tag, r) ∈ n.callbacks.entries ∧ f ∈ r.callback.all ∧ fn ∈ f.pingFns) ∨
      ∃ a cb, (a, cb) ∈ n.pingsInProgress.entries ∧ fn ∈ cb.all := by
  simp only [pingFns, List.mem_append, List.mem_flatMap, Prod.exists]
  grind

/-- The pings in progress change where a ping is made or joined, and where its outcome is known. -/
theorem exec_pingsInProgress (h : exec Γ ch c n = some p) :
    p.1.pingsInProgress = n.pingsInProgress ∨
      (∃ a cb, c = .ping a cb ∧ n.pingsInProgress.find? a = none ∧
        p.1.pingsInProgress = n.pingsInProgress.insert a cb) ∨
      (∃ a cb old, c = .ping a cb ∧ n.pingsInProgress.find? a = some old ∧
        p.1.pingsInProgress = n.pingsInProgress.insert a (old.add cb)) ∨
      ∃ ok a cb m, (c = .base (.callback ok (.pingSuccess a cb) m) ∨ c = .base (.callback ok (.pingFailure a cb) m)) ∧
        p.1.pingsInProgress = n.pingsInProgress.erase a := by
  obtain ⟨n', cs⟩ := p
  have hch : Changes n c n' := exec_changes h
  cases hch with
  | pings q hc =>
    unfold movesPing at hc
    split at hc
    · cases h
      exact Or.inr (Or.inr (Or.inr ⟨_, _, _, _, Or.inl rfl, rfl⟩))
    · rename_i a cb
      simp only [exec, ping, Option.some.injEq] at h
      split at h
      · rename_i old hf
        refine Or.inr (Or.inr (Or.inl ⟨a, cb, old, rfl, hf, ?_⟩))
        exact congrArg (fun p => p.1.pingsInProgress) h.symm
      · rename_i hf
        refine Or.inr (Or.inl ⟨a, cb, rfl, hf, ?_⟩)
        exact congrArg (fun p => p.1.pingsInProgress) h.symm
    · cases hc
  | pingFailed q =>
    cases h
    exact Or.inr (Or.inr (Or.inr ⟨_, _, _, _, Or.inr rfl, rfl⟩))
  | _ => exact Or.inl rfl

/-- A node holds no function of a ping but those it held and those the call carried. -/
theorem exec_pingFns (h : exec Γ ch c n = some p) (hfn : fn ∈ p.1.pingFns) : fn ∈ n.pingFns ∨ fn ∈ c.pingFns := by
  rcases mem_pingFns.1 hfn with ⟨tag, r', f, hr, hf, hfn⟩ | ⟨a, cb', ha, hfn⟩
  · rcases exec_record h hr with ⟨r, hr, -, hcb⟩ | ⟨m, mr, t, rfl, -⟩
    · exact Or.inl (mem_pingFns.2 (Or.inl ⟨tag, r, f, hr, hcb ▸ hf, hfn⟩))
    · exact Or.inr (List.mem_flatMap.2 ⟨f, hf, hfn⟩)
  · have hold : (a, cb') ∈ n.pingsInProgress.entries → fn ∈ n.pingFns := fun ha => mem_pingFns.2 (Or.inr ⟨a, cb', ha, hfn⟩)
    rcases exec_pingsInProgress h with he | ⟨b, cb, rfl, -, he⟩ | ⟨b, cb, old, rfl, hf, he⟩ | ⟨ok, b, cb, m, -, he⟩
    · exact Or.inl (hold (he ▸ ha))
    · rw [he, SortedMap.mem_entries_insert] at ha
      rcases ha with ha | ⟨ha, -⟩
      · cases ha
        exact Or.inr hfn
      · exact Or.inl (hold ha)
    · rw [he, SortedMap.mem_entries_insert] at ha
      rcases ha with ha | ⟨ha, -⟩
      · cases ha
        rcases CallbackSet.mem_all_add hfn with hfn | hfn
        · exact Or.inl (mem_pingFns.2 (Or.inr ⟨_, old, SortedMap.find?_eq_some_iff.1 hf, hfn⟩))
        · exact Or.inr hfn
      · exact Or.inl (hold ha)
    · rw [he, SortedMap.mem_entries_erase] at ha
      exact Or.inl (hold ha.1)

/-- A call carries no function of a ping but those of the node and of the call that made it, and those that an observation
of a contact for a full bucket makes. -/
theorem makes_pingFns {x : Call} (h : Makes Γ ch n c x) (hfn : fn ∈ x.pingFns) :
    fn ∈ n.pingFns ∨ fn ∈ c.pingFns ∨ fn = .drop ∨ ∃ a k, ∃ i : Fin keyLenBits, c = .observe a k ∧ longestMatchingPrefix n.key k = i ∧
      (∀ e ∈ n.buckets i, e.key ≠ k) ∧ n.config.k ≤ (n.buckets i).length ∧ fn = .evict i ⟨k, a, n.epoch⟩ := by
  cases h with
  | giveUp hn hdue hr hf =>
    exact Or.inl (mem_pingFns.2 (Or.inl ⟨_, _, _, SortedMap.mem_of_next hn, CallbackSet.mem_all.2 (Or.inr hf), hfn⟩))
  | resolve hr hf =>
    exact Or.inl (mem_pingFns.2 (Or.inl ⟨_, _, _, SortedMap.find?_eq_some_iff.1 hr, CallbackSet.mem_all.2 (Or.inl hf),
      hfn⟩))
  | sendDead hd hf => exact Or.inr (Or.inl (List.mem_flatMap.2 ⟨_, CallbackSet.mem_all.2 (Or.inr hf), hfn⟩))
  | pingOldest hi hne hk hb =>
    simp only [Call.pingFns, CallbackSet.all, CallbackSet.of, List.cons_append, List.nil_append, List.mem_pair] at hfn
    rcases hfn with rfl | rfl
    · exact Or.inr (Or.inr (Or.inl rfl))
    · exact Or.inr (Or.inr (Or.inr ⟨_, _, _, rfl, hi, hne, hk, rfl⟩))
  | pingSend hf =>
    simp only [Call.pingFns, CallbackSet.all, CallbackSet.of, List.cons_append, List.nil_append, List.flatMap_cons,
      List.flatMap_nil, SendFn.pingFns, List.append_nil] at hfn
    exact Or.inr (Or.inl ((List.mem_append.1 hfn).elim id id))
  | pingSucceeded hf =>
    rw [Call.pingFns, List.mem_singleton] at hfn
    exact Or.inr (Or.inl (hfn ▸ CallbackSet.mem_all.2 (Or.inl hf)))
  | pingFailed hf =>
    rw [Call.pingFns, List.mem_singleton] at hfn
    exact Or.inr (Or.inl (hfn ▸ CallbackSet.mem_all.2 (Or.inr hf)))
  | _ => simp [Call.pingFns, CallbackSet.all, CallbackSet.of, CallbackSet.empty, SendFn.pingFns] at hfn

/-- A call that comes in from outside carries only functions of pings from outside. -/
theorem pingFns_of_isEvent (hc : c.isEvent = true) (hfn : fn ∈ c.pingFns) : ∃ f, fn = .user f := by
  have hfrom : fn.fromOutside = true → ∃ f, fn = .user f := by
    intro h
    cases fn with
    | user f => exact ⟨f, rfl⟩
    | _ => cases h
  cases c with
  | base b =>
    cases b with
    | send m cb mr t =>
      have he : cb.isEmpty = true := hc
      simp [Call.pingFns, CallbackSet.all_of_isEmpty he] at hfn
    | callback ok f m => cases hc
    | _ => simp [Call.pingFns] at hfn
  | ping a cb =>
    have hall : cb.successFns.all PingFn.fromOutside = true ∧ cb.failureFns.all PingFn.fromOutside = true :=
      Bool.and_eq_true_iff.1 hc
    rcases CallbackSet.mem_all.1 hfn with hfn | hfn
    · exact hfrom (List.all_eq_true.1 hall.1 _ hfn)
    · exact hfrom (List.all_eq_true.1 hall.2 _ hfn)
  | pinged ok f => cases hc
  | _ => simp [Call.pingFns] at hfn

end KademliaNode

end Dhtsim
