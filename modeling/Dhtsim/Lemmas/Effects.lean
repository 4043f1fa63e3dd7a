import Dhtsim.Model.Machine

/-!
# What each function changes

One lemma for each function of the node: the fields it leaves alone are the ones its equation does not name. From these,
what a call can do to the identity of a node, to its being dead, to its buckets and to its table.
-/

namespace Dhtsim

open CallMachine

namespace BaseApplication

variable {A F : Type}

/-- `send` on a live application: the message goes out with its tag, and is recorded if somebody waits for the reply. -/
theorem send_of_live {app : BaseApplication A F} (h : app.dead = false) (drawn : Tag) (m : Message A)
    (cb : CallbackSet F) (r : UInt32) (t : UInt64) :
    app.send drawn m cb r t =
      ((app.register (m.tagged drawn) cb r (if t = 0 then defaultTimeout else t)).queueOut (m.tagged drawn), []) := by
  simp [send, h]

/-- `send` on a dead application: nothing happens but the failure callbacks. -/
theorem send_of_dead {app : BaseApplication A F} (h : app.dead = true) (drawn : Tag) (m : Message A)
    (cb : CallbackSet F) (r : UInt32) (t : UInt64) :
    app.send drawn m cb r t = (app, cb.failureFns.map (fun fn => .callback false fn m)) := by
  simp [send, h]

theorem queueOut_eq (app : BaseApplication A F) (m : Message A) :
    app.queueOut m = { app with outqueue := (app.queueOut m).outqueue } := by
  unfold queueOut
  split <;> rfl

theorem queueIn_eq (app : BaseApplication A F) (m : Message A) :
    app.queueIn m = { app with inqueue := (app.queueIn m).inqueue } := by
  unfold queueIn
  split <;> rfl

theorem register_eq (app : BaseApplication A F) (m : Message A) (cb : CallbackSet F) (r : UInt32) (t : UInt64) :
    app.register m cb r t = { app with callbacks := (app.register m cb r t).callbacks } := by
  unfold register
  split <;> rfl

/-- `send` changes the outbound queue and the records, nothing else. -/
theorem send_eq (app : BaseApplication A F) (drawn : Tag) (m : Message A) (cb : CallbackSet F) (r : UInt32) (t : UInt64) :
    (app.send drawn m cb r t).1 =
      { app with
        outqueue := (app.send drawn m cb r t).1.outqueue, callbacks := (app.send drawn m cb r t).1.callbacks } := by
  unfold send
  split
  · rfl
  · dsimp only
    rw [queueOut_eq, register_eq]

/-- A send without a callback makes no record. -/
theorem send_empty_callbacks (app : BaseApplication A F) (drawn : Tag) (m : Message A) (r : UInt32) (t : UInt64) :
    (app.send drawn m .empty r t).1.callbacks = app.callbacks := by
  cases h : app.dead with
  | true => rw [send_of_dead h]
  | false =>
    rw [send_of_live h, queueOut_eq]
    rfl

theorem attemptRetry_eq (drawn tag : Tag) (app : BaseApplication A F) :
    attemptRetry drawn tag app =
      { app with
        outqueue := (attemptRetry drawn tag app).outqueue, callbacks := (attemptRetry drawn tag app).callbacks } := by
  unfold attemptRetry
  split
  · rfl
  · rw [send_eq]

/-- Only `die` changes whether an application is dead. -/
theorem exec_dead {drawn : Tag} {c : BaseCall A F} {app : BaseApplication A F} (hc : c ≠ .die) :
    (exec drawn c app).1.dead = app.dead := by
  cases c with
  | tick time => simp only [exec]; split <;> rfl
  | drain => simp only [exec]; split <;> rfl
  | overdue after => simp only [exec]; (repeat' split) <;> rfl
  | attemptRetry tag => simp only [exec]; rw [attemptRetry_eq]
  | send m cb r t => simp only [exec]; rw [send_eq]
  | receive m => simp only [exec]; split <;> rfl
  | recv m => simp only [exec]; rw [queueIn_eq]
  | die => exact absurd rfl hc
  | _ => rfl

/-- Only the tick of a live application changes its epoch. -/
theorem exec_epoch (drawn : Tag) (c : BaseCall A F) (app : BaseApplication A F) :
    (∃ time, c = .tick time ∧ app.dead = false ∧ (exec drawn c app).1.epoch = time) ∨
      (exec drawn c app).1.epoch = app.epoch := by
  cases c with
  | tick time =>
    cases hd : app.dead with
    | true => right; simp [exec, hd]
    | false => left; exact ⟨time, rfl, rfl, by simp [exec, hd]⟩
  | drain => right; simp only [exec]; split <;> rfl
  | overdue after => right; simp only [exec]; (repeat' split) <;> rfl
  | attemptRetry tag => right; simp only [exec]; rw [attemptRetry_eq]
  | send m cb r t => right; simp only [exec]; rw [send_eq]
  | receive m => right; simp only [exec]; split <;> rfl
  | recv m => right; simp only [exec]; rw [queueIn_eq]
  | _ => exact Or.inr rfl

end BaseApplication

namespace KademliaNode

variable {Γ : Ctx} {ch : Choice} {c : Call} {n n' : KademliaNode} {p : KademliaNode × List Call}

/-- What a node keeps for life: its key, its configuration, its maintenance offset. -/
def identity (n : KademliaNode) : KademliaKey × Config × Time := (n.key, n.config, n.maintenanceOffset)

@[simp] theorem buckets_setBucket_self (n : KademliaNode) (i : Fin keyLenBits) (b : List BucketEntry) :
    (n.setBucket i b).buckets i = b := by
  simp only [setBucket, Function.update_self]

theorem buckets_setBucket_of_ne (n : KademliaNode) {i j : Fin keyLenBits} (b : List BucketEntry) (h : j ≠ i) :
    (n.setBucket i b).buckets j = n.buckets j := by
  simp only [setBucket, Function.update_of_ne h]

/-! ## The functions -/

theorem ping_eq (n : KademliaNode) (a : UInt32) (cb : CallbackSet PingFn) :
    (n.ping Γ a cb).1 = { n with pingsInProgress := (n.ping Γ a cb).1.pingsInProgress } := by
  unfold ping
  split <;> rfl

theorem lookup_eq (n : KademliaNode) (fv : Bool) (t : KademliaKey) (cb : CallbackSet FindNodesFn) :
    (n.lookup Γ fv t cb).1 = { n with nodesBeingFound := (n.lookup Γ fv t cb).1.nodesBeingFound } := by
  unfold lookup
  split <;> rfl

theorem findNodesStep_eq (n : KademliaNode) (t : KademliaKey) (l : List BucketEntry) :
    (n.findNodesStep Γ t l).1 = { n with nodesBeingFound := (n.findNodesStep Γ t l).1.nodesBeingFound } := by
  unfold findNodesStep
  split
  · rfl
  · dsimp only
    split
    · rfl
    · split <;> rfl

/-- A step of a lookup finds nobody left to ask, or it asks the nearest one. -/
theorem findNodesStep_cases {t : KademliaKey} {nf : NodeFinder} (hf : n.nodesBeingFound.find? t = some nf)
    (l : List BucketEntry) :
    ((nf.learn l).uncontacted = [] ∧ n.findNodesStep Γ t l = (n.setFinder t (nf.learn l), if (nf.learn l).waiting = 0 then
      [if (nf.learn l).findValue then .findNodesFail t else .findNodesFinish t] else [])) ∨
    ∃ top uncontacted, sortByDistanceTo Γ t (nf.learn l).uncontacted = top :: uncontacted ∧
      n.findNodesStep Γ t l =
        (n.setFinder t { nf.learn l with uncontacted := uncontacted, waiting := (nf.learn l).waiting + 1 },
          [.base (.send (n.findNodesRequest Γ t (nf.learn l).findValue top)
            (.of (.findSuccess t top) (.findFailure t top)) 1 2)]) := by
  have hperm : (sortByDistanceTo Γ t (nf.learn l).uncontacted).Perm (nf.learn l).uncontacted := Γ.sort_perm _ _
  cases hs : sortByDistanceTo Γ t (nf.learn l).uncontacted with
  | nil =>
    have hun : (nf.learn l).uncontacted = [] := (hs ▸ hperm).nil_eq.symm
    refine Or.inl ⟨hun, ?_⟩
    simp only [findNodesStep, hf, hun, List.isEmpty_nil, if_true]
  | cons top uncontacted =>
    have hun : (nf.learn l).uncontacted.isEmpty = false := by
      cases hl : (nf.learn l).uncontacted with
      | nil =>
        rw [hs, hl] at hperm
        cases hperm.eq_nil
      | cons e es => rfl
    refine Or.inr ⟨top, uncontacted, rfl, ?_⟩
    simp only [findNodesStep, hf, hun, hs]
    rfl

theorem findSuccess_eq (n : KademliaNode) (t : KademliaKey) (top : BucketEntry) (m : Message UInt32) :
    (n.findSuccess Γ ch t top m).1 =
      { n with nodesBeingFound := (n.findSuccess Γ ch t top m).1.nodesBeingFound } := by
  unfold findSuccess
  split <;> rfl

theorem findFailure_eq (n : KademliaNode) (t : KademliaKey) (top : BucketEntry) :
    (n.findFailure t top).1 =
      { n.unobserve top.address with nodesBeingFound := (n.findFailure t top).1.nodesBeingFound } := by
  unfold findFailure
  dsimp only
  split <;> rfl

theorem storeValue_eq (n : KademliaNode) (k : KademliaKey) (v : List UInt8) :
    n.storeValue k v = { n with table := (n.storeValue k v).table } := by
  unfold storeValue
  split <;> rfl

theorem refreshLoop_eq (n : KademliaNode) (i : Nat) (cb : CallbackSet UserFn) (w : Nat) :
    (n.refreshLoop i cb w).1 = { n with refreshWaiting := (n.refreshLoop i cb w).1.refreshWaiting } := by
  unfold refreshLoop
  split
  · split <;> rfl
  · rfl

theorem findNodesFail_eq {t : KademliaKey} (h : n.findNodesFail ch t = some p) :
    p.1 = n ∧ ∃ nf, n.nodesBeingFound.find? t = some nf ∧ p.2 = complete nf t false (failResult ch) := by
  obtain ⟨nf, hf, rfl⟩ := Option.map_eq_some_iff.1 h
  exact ⟨rfl, nf, hf, rfl⟩

theorem findNodesFinish_eq {t : KademliaKey} (h : n.findNodesFinish Γ ch t = some p) :
    ∃ nf, n.nodesBeingFound.find? t = some nf ∧
      p.1 = n.setFinder t { nf with contacted := sortByDistanceTo Γ t nf.contacted } ∧
      p.2 = complete nf t true (finishResult (sortByDistanceTo Γ t nf.contacted) ch) := by
  obtain ⟨nf, hf, rfl⟩ := Option.map_eq_some_iff.1 h
  exact ⟨nf, hf, rfl, rfl⟩

theorem findValueFinish_eq {t : KademliaKey} {v : List UInt8} (h : n.findValueFinish ch t v = some p) :
    p.1 = n ∧ ∃ nf, n.nodesBeingFound.find? t = some nf ∧ p.2 = complete nf t true (valueResult v ch) := by
  obtain ⟨nf, hf, rfl⟩ := Option.map_eq_some_iff.1 h
  exact ⟨rfl, nf, hf, rfl⟩

/-- The three outcomes of an observation of another node's key: an entry of that key is replaced and moves to the end, or
the new entry is appended where there is room, or the first entry of a full bucket is pinged. -/
theorem observe_cases {a : UInt32} {k : KademliaKey} (h : n.observe a k = some p) :
    (k = n.key ∧ p = (n, [])) ∨ ∃ i : Fin keyLenBits, longestMatchingPrefix n.key k = i ∧
      ((∃ l₁ old l₂, n.buckets i = l₁ ++ old :: l₂ ∧ old.key = k ∧ (∀ e ∈ l₁, e.key ≠ k) ∧
          p = (n.setBucket i (l₁ ++ l₂ ++ [⟨k, a, n.epoch⟩]), [])) ∨
        ((∀ e ∈ n.buckets i, e.key ≠ k) ∧ (n.buckets i).length < n.config.k ∧
          p = (n.setBucket i (n.buckets i ++ [⟨k, a, n.epoch⟩]), [])) ∨
        ((∀ e ∈ n.buckets i, e.key ≠ k) ∧ n.config.k ≤ (n.buckets i).length ∧ ∃ lrs rest,
          n.buckets i = lrs :: rest ∧ p = (n, [.ping lrs.address (.of .drop (.evict i ⟨k, a, n.epoch⟩))]))) := by
  simp only [observe, updateOrAddToBucket] at h
  split at h
  · rename_i hi
    refine Or.inr ⟨⟨_, hi⟩, rfl, ?_⟩
    split at h
    · rename_i hany
      obtain ⟨old, hold, hk⟩ := List.any_eq_true.1 hany
      obtain ⟨old', l₁, l₂, hl₁, hk', hb, he⟩ :=
        List.exists_of_eraseP (p := fun e => decide (e.key = k)) hold hk
      rw [he] at h
      cases h
      exact Or.inl ⟨l₁, old', l₂, hb, by simpa using hk', fun e hel => by simpa using hl₁ e hel, rfl⟩
    · rename_i hany
      have hne : ∀ e ∈ n.buckets ⟨_, hi⟩, e.key ≠ k := by
        intro e he hk
        exact hany (List.any_eq_true.2 ⟨e, he, by simpa using hk⟩)
      split at h
      · rename_i hlen
        cases h
        exact Or.inr (Or.inl ⟨hne, hlen, rfl⟩)
      · rename_i hlen
        split at h
        · cases h
        · rename_i lrs rest hb
          cases h
          exact Or.inr (Or.inr ⟨hne, Nat.le_of_not_lt hlen, lrs, rest, hb, rfl⟩)
  · rename_i hi
    have heq := eq_of_longestMatchingPrefix (le_antisymm (longestMatchingPrefix_le n.key k) (Nat.le_of_not_lt hi))
    cases h
    exact Or.inl ⟨heq.symm, rfl⟩

/-- An observation changes the buckets and nothing else. -/
theorem observe_eq {a : UInt32} {k : KademliaKey} (h : n.observe a k = some p) :
    p.1 = { n with buckets := p.1.buckets } := by
  rcases observe_cases h with ⟨-, rfl⟩ | ⟨i, -, ⟨_, _, _, -, -, -, rfl⟩ | ⟨-, -, rfl⟩ | ⟨-, -, _, _, -, rfl⟩⟩ <;> rfl

/-- An eviction replaces the first entry of a bucket that has one by the new entry, at the end. -/
theorem evict_cases {i : Fin keyLenBits} {e : BucketEntry} (h : n.evict i e = some n') :
    ∃ hd tl, n.buckets i = hd :: tl ∧ n' = n.setBucket i (tl ++ [e]) := by
  unfold evict at h
  split at h
  · cases h
  · rename_i hd tl hb
    cases h
    exact ⟨hd, tl, hb, rfl⟩

/-! ## The calls -/

/-- A call of the base that the node does not override. -/
theorem execBase_eq {c : BaseCall UInt32 SendFn} (h1 : ∀ m, c ≠ .handleMessage m) (h2 : ∀ ok fn m, c ≠ .callback ok fn m) :
    n.execBase Γ ch c =
      (n.setBase (BaseApplication.exec ch.tag c n.toBaseApplication).1,
        (BaseApplication.exec ch.tag c n.toBaseApplication).2.map .base) := by
  cases c with
  | handleMessage m => exact absurd rfl (h1 m)
  | callback ok fn m => exact absurd rfl (h2 ok fn m)
  | _ => rfl

/-- The calls that may change the lookups in progress and nothing else. -/
def movesLookup : Call → Bool
  | .base (.callback _ (.findSuccess _ _) _) => true
  | .lookup _ _ _ => true
  | .findNodesStep _ _ => true
  | .findNodesFinish _ => true
  | .eraseFinder _ => true
  | _ => false

/-- The calls that may change the pings in progress and nothing else. -/
def movesPing : Call → Bool
  | .base (.callback _ (.pingSuccess _ _) _) => true
  | .ping _ _ => true
  | _ => false

/-- The calls that may change the table and nothing else. -/
def movesTable : Call → Bool
  | .handleStore _ _ => true
  | .runTableMaintenance => true
  | _ => false

/-- The calls that may change the counters of refreshes and nothing else. -/
def movesCounter : Call → Bool
  | .refreshBuckets _ => true
  | .refreshLoop _ _ _ => true
  | .refreshed _ => true
  | _ => false

/-- What a call may change of a node: one constructor for each field, or pair of fields, that changes. -/
inductive Changes (n : KademliaNode) : Call → KademliaNode → Prop where
  | base {b : BaseCall UInt32 SendFn} (drawn : Tag) (h1 : ∀ m, b ≠ .handleMessage m)
      (h2 : ∀ ok fn m, b ≠ .callback ok fn m) :
      Changes n (.base b) (n.setBase (BaseApplication.exec drawn b n.toBaseApplication).1)
  | lookups {c : Call} (f : SortedMap KademliaKey NodeFinder) (hc : movesLookup c = true) :
      Changes n c { n with nodesBeingFound := f }
  | pings {c : Call} (q : SortedMap UInt32 (CallbackSet PingFn)) (hc : movesPing c = true) :
      Changes n c { n with pingsInProgress := q }
  | pingFailed {ok : Bool} {a : UInt32} {cb : CallbackSet PingFn} {m : Message UInt32}
      (q : SortedMap UInt32 (CallbackSet PingFn)) :
      Changes n (.base (.callback ok (.pingFailure a cb) m)) { n.unobserve a with pingsInProgress := q }
  | findFailed {ok : Bool} {t : KademliaKey} {top : BucketEntry} {m : Message UInt32}
      (f : SortedMap KademliaKey NodeFinder) :
      Changes n (.base (.callback ok (.findFailure t top) m)) { n.unobserve top.address with nodesBeingFound := f }
  | observed {a : UInt32} {k : KademliaKey} (b : Fin keyLenBits → List BucketEntry) :
      Changes n (.observe a k) { n with buckets := b }
  | evicted {ok : Bool} {i : Fin keyLenBits} {e hd : BucketEntry} {tl : List BucketEntry} (hb : n.buckets i = hd :: tl) :
      Changes n (.pinged ok (.evict i e)) (n.setBucket i (tl ++ [e]))
  | table {c : Call} (t : SortedMap KademliaKey TableEntry) (hc : movesTable c = true) : Changes n c { n with table := t }
  | counters {c : Call} (r : List UInt32) (hc : movesCounter c = true) : Changes n c { n with refreshWaiting := r }
  | nothing (c : Call) : Changes n c n

theorem changes_of_fst_eq {n' : KademliaNode} (h : Changes n c n') (he : p.1 = n') : Changes n c p.1 := he ▸ h

theorem execBase_changes (c : BaseCall UInt32 SendFn) : Changes n (.base c) (n.execBase Γ ch c).1 := by
  cases c with
  | callback ok fn m =>
    cases fn with
    | pingSuccess a cb => exact .pings _ rfl
    | pingFailure a cb => exact .pingFailed _
    | findSuccess t top => exact changes_of_fst_eq (.lookups _ rfl) (findSuccess_eq n t top m)
    | findFailure t top => exact changes_of_fst_eq (.findFailed _) (findFailure_eq n t top)
  | handleMessage m => exact .nothing _
  | _ =>
    rw [execBase_eq (by simp) (by simp)]
    exact .base ch.tag (by simp) (by simp)

/-- Every call changes a node in one of these ways. -/
theorem exec_changes (h : exec Γ ch c n = some p) : Changes n c p.1 := by
  cases c with
  | base c => cases h; exact execBase_changes c
  | observe a k => exact changes_of_fst_eq (.observed _) (observe_eq h)
  | ping a cb => cases h; exact changes_of_fst_eq (.pings _ rfl) (ping_eq n a cb)
  | pinged ok fn =>
    cases fn with
    | evict i e =>
      obtain ⟨n₁, he, rfl⟩ := Option.map_eq_some_iff.1 h
      obtain ⟨_, _, hb, rfl⟩ := evict_cases he
      exact .evicted hb
    | _ => cases h; exact .nothing _
  | lookup fv t cb => cases h; exact changes_of_fst_eq (.lookups _ rfl) (lookup_eq n fv t cb)
  | findNodesStep t l => cases h; exact changes_of_fst_eq (.lookups _ rfl) (findNodesStep_eq n t l)
  | findNodesFail t => exact changes_of_fst_eq (.nothing _) (findNodesFail_eq h).1
  | findNodesFinish t =>
    obtain ⟨nf, -, h', -⟩ := findNodesFinish_eq h
    exact changes_of_fst_eq (.lookups _ rfl) h'
  | findValueFinish t v => exact changes_of_fst_eq (.nothing _) (findValueFinish_eq h).1
  | eraseFinder t => cases h; exact .lookups _ rfl
  | handleStore m sm => cases h; exact changes_of_fst_eq (.table _ rfl) (storeValue_eq n _ _)
  | runTableMaintenance => cases h; exact .table _ rfl
  | refreshBuckets cb => cases h; exact .counters _ rfl
  | refreshLoop i cb w => cases h; exact changes_of_fst_eq (.counters _ rfl) (refreshLoop_eq n i cb w)
  | refreshed fn => cases h; exact .counters _ rfl
  | maintenanceCheck =>
    simp only [exec, Option.ite_none_left_eq_some] at h
    cases h.2
    exact .nothing _
  | refreshCheck =>
    simp only [exec, Option.ite_none_left_eq_some] at h
    cases h.2
    exact .nothing _
  | userCode => cases h
  | _ => cases h; exact .nothing _

/-- No call changes the identity of a node. -/
theorem exec_identity (h : exec Γ ch c n = some p) : p.1.identity = n.identity := by
  obtain ⟨n', cs⟩ := p
  have hch : Changes n c n' := exec_changes h
  cases hch <;> rfl

theorem identity_of_run {ok : NodeConfig → NodeLabel → Prop} {m₀ m : NodeConfig} (h : Run (nodeProgram Γ) ok m₀ m) :
    m.state.identity = m₀.state.identity := by
  refine h.invariant (I := fun m => m.state.identity = m₀.state.identity) rfl ?_
  intro m l m' _ hI _ hs
  cases hs with
  | run hw he => exact (exec_identity he).trans hI
  | _ => exact hI

/-- Only `die` changes whether a node is dead. -/
theorem exec_dead (h : exec Γ ch c n = some p) (hc : c ≠ .base .die) : p.1.dead = n.dead := by
  obtain ⟨n', cs⟩ := p
  have hch : Changes n c n' := exec_changes h
  cases hch with
  | base drawn h1 h2 => exact BaseApplication.exec_dead (fun h => hc (congrArg _ h))
  | _ => rfl

/-- Only the tick of the base of a live node changes the node's epoch. -/
theorem exec_epoch (h : exec Γ ch c n = some p) :
    (∃ time, c = .base (.tick time) ∧ n.dead = false ∧ p.1.epoch = time) ∨ p.1.epoch = n.epoch := by
  obtain ⟨n', cs⟩ := p
  have hch : Changes n c n' := exec_changes h
  cases hch with
  | @base b drawn h1 h2 =>
    rcases BaseApplication.exec_epoch drawn b n.toBaseApplication with ⟨time, rfl, hlive, he⟩ | he
    · exact Or.inl ⟨time, rfl, hlive, he⟩
    · exact Or.inr he
  | _ => exact Or.inr rfl

/-- The buckets change where a contact is observed, where a request failed, and where an eviction happens. -/
theorem exec_buckets (h : exec Γ ch c n = some p) :
    p.1.buckets = n.buckets ∨ (∃ a k, c = .observe a k) ∨
      (∃ ok a cb m, c = .base (.callback ok (.pingFailure a cb) m) ∧ p.1.buckets = (n.unobserve a).buckets) ∨
      (∃ ok t top m, c = .base (.callback ok (.findFailure t top) m) ∧
        p.1.buckets = (n.unobserve top.address).buckets) ∨
      ∃ ok i e hd tl, c = .pinged ok (.evict i e) ∧ n.buckets i = hd :: tl ∧ p.1 = n.setBucket i (tl ++ [e]) := by
  obtain ⟨n', cs⟩ := p
  have hch : Changes n c n' := exec_changes h
  cases hch with
  | observed b => exact Or.inr (Or.inl ⟨_, _, rfl⟩)
  | pingFailed q => exact Or.inr (Or.inr (Or.inl ⟨_, _, _, _, rfl, rfl⟩))
  | findFailed f => exact Or.inr (Or.inr (Or.inr (Or.inl ⟨_, _, _, _, rfl, rfl⟩)))
  | evicted hb => exact Or.inr (Or.inr (Or.inr (Or.inr ⟨_, _, _, _, _, rfl, hb, rfl⟩)))
  | _ => exact Or.inl rfl

/-- A property of all buckets holds after one bucket was replaced, if it holds of the new one. -/
theorem setBucket_forall {P : Fin keyLenBits → List BucketEntry → Prop} {i : Fin keyLenBits} {b : List BucketEntry}
    (h : ∀ j, P j (n.buckets j)) (hb : P i b) : ∀ j, P j ((n.setBucket i b).buckets j) := by
  intro j
  by_cases hj : j = i
  · rw [hj, buckets_setBucket_self]
    exact hb
  · rw [buckets_setBucket_of_ne n b hj]
    exact h j

/-- A property of the buckets holds after a call if it survives what a call can do to a bucket: removing entries, moving the
observed entry to the end, adding it where there is room, and an eviction. -/
theorem exec_buckets_forall {P : Fin keyLenBits → List BucketEntry → Prop} (h : exec Γ ch c n = some p)
    (hP : ∀ j, P j (n.buckets j)) (hsub : ∀ i l l', List.Sublist l' l → P i l → P i l')
    (hreplace : ∀ a k (i : Fin keyLenBits) l₁ old l₂, c = .observe a k → longestMatchingPrefix n.key k = i →
      old.key = k → P i (l₁ ++ old :: l₂) → P i (l₁ ++ l₂ ++ [⟨k, a, n.epoch⟩]))
    (hadd : ∀ a k (i : Fin keyLenBits) l, c = .observe a k → longestMatchingPrefix n.key k = i →
      (∀ e ∈ l, e.key ≠ k) → l.length < n.config.k → P i l → P i (l ++ [⟨k, a, n.epoch⟩]))
    (hevict : ∀ ok i e hd tl, c = .pinged ok (.evict i e) → P i (hd :: tl) → P i (tl ++ [e])) :
    ∀ j, P j (p.1.buckets j) := by
  rcases exec_buckets h with
    he | ⟨a, k, rfl⟩ | ⟨ok, a, cb, m, rfl, he⟩ | ⟨ok, t, top, m, rfl, he⟩ | ⟨ok, i, e, hd, tl, rfl, hb, he⟩
  · rw [he]; exact hP
  · rcases observe_cases h with
      ⟨-, rfl⟩ | ⟨i, hi, ⟨l₁, old, l₂, hb, hk, -, rfl⟩ | ⟨hne, hlen, rfl⟩ | ⟨-, -, _, _, -, rfl⟩⟩
    · exact hP
    · exact setBucket_forall hP (hreplace a k i l₁ old l₂ rfl hi hk (hb ▸ hP i))
    · exact setBucket_forall hP (hadd a k i _ rfl hi hne hlen (hP i))
    · exact hP
  · rw [he]; exact fun j => hsub j _ _ List.filter_sublist (hP j)
  · rw [he]; exact fun j => hsub j _ _ List.filter_sublist (hP j)
  · rw [he]; exact setBucket_forall hP (hevict ok i e hd tl rfl (hb ▸ hP i))

/-- The table changes where a value is stored, and where table maintenance runs. -/
theorem exec_table (h : exec Γ ch c n = some p) :
    p.1.table = n.table ∨
      (∃ m sm, c = .handleStore m sm ∧ p.1.table = (n.storeValue (Γ.sha1 sm.value) sm.value).table) ∨
      (c = .runTableMaintenance ∧ p.1.table = n.table.filter (fun e => !n.expired e.2)) := by
  obtain ⟨n', cs⟩ := p
  have hch : Changes n c n' := exec_changes h
  cases hch with
  | table t hc =>
    unfold movesTable at hc
    split at hc
    · exact Or.inr (Or.inl ⟨_, _, rfl, congrArg (fun p => p.1.table) (Option.some.inj h).symm⟩)
    · exact Or.inr (Or.inr ⟨rfl, congrArg (fun p => p.1.table) (Option.some.inj h).symm⟩)
    · cases hc
  | _ => exact Or.inl rfl

/-- Storing a value touches the entry of its key, or makes it. -/
theorem find?_storeValue (n : KademliaNode) (k : KademliaKey) (v : List UInt8) (k' : KademliaKey) :
    (n.storeValue k v).table.find? k' =
      if k' = k then some (((n.table.find? k).map (fun e => { e with lastTouch := n.epoch })).getD ⟨v, n.epoch, n.epoch⟩)
      else n.table.find? k' := by
  unfold storeValue
  split
  · rename_i e hf
    simp only [SortedMap.find?_insert, hf, Option.map_some, Option.getD_some]
    split_ifs <;> rfl
  · rename_i hf
    simp only [SortedMap.find?_insert, hf, Option.map_none, Option.getD_none]
    split_ifs <;> rfl

end KademliaNode

end Dhtsim
