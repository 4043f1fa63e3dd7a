import Dhtsim.Lemmas.Pending

/-!
# Following a request

A tracker says what a call, or the record of a request, stands for: for which ping, for which step of which lookup. The base
application hands this on unchanged, whatever it does with the request; the other calls may change it.
-/

namespace Dhtsim

open CallMachine

/-- What every reachable configuration ensures about the records and the calls that wait. -/
structure Orderly (Γ : Ctx) (n : KademliaNode) (stack : List Call) : Prop where
  records : n.RecordsRequests Γ
  calls : ∀ c ∈ stack, c.FromRequests Γ n.key
  order : Disciplined stack

namespace Orderly

variable {Γ : Ctx} {ch : Choice} {c : Call} {n : KademliaNode} {p : KademliaNode × List Call} {rest stack : List Call}

/-- A call that runs leaves its node and its stack in order. -/
theorem exec (h : Orderly Γ n (c :: rest)) (he : KademliaNode.exec Γ ch c n = some p) : Orderly Γ p.1 (p.2 ++ rest) := by
  have hc := h.calls c List.mem_cons_self
  have hkey : p.1.key = n.key := congrArg (·.1) (KademliaNode.exec_identity he)
  refine ⟨KademliaNode.exec_recordsRequests he h.records hc, fun x hx => ?_, KademliaNode.disciplined_step he h.order⟩
  rw [hkey]
  rcases List.mem_append.1 hx with hx | hx
  · exact KademliaNode.makes_fromRequests (KademliaNode.exec_makes he x hx) h.records hc
  · exact h.calls x (List.mem_cons_of_mem _ hx)

/-- An event begins in order. -/
theorem event (hc : c.isEvent = true) (h : Orderly Γ n []) : Orderly Γ n [c] := by
  refine ⟨h.records, fun x hx => ?_, List.pairwise_singleton _ _⟩
  rw [List.mem_singleton.1 hx]
  exact KademliaNode.fromRequests_of_isEvent hc

/-- Outside code that calls in leaves the order. -/
theorem reentry (hc : c.isPublic = true) (h : Orderly Γ n stack) : Orderly Γ n (c :: stack) := by
  refine ⟨h.records, fun x hx => ?_, KademliaNode.disciplined_reentry hc h.order⟩
  rcases List.mem_cons.1 hx with rfl | hx
  · exact KademliaNode.fromRequests_of_isEvent (isEvent_of_enters (Γ := Γ) (Or.inr hc))
  · exact h.calls x hx

/-- What waits below a call is in order. -/
theorem tail (h : Orderly Γ n (c :: rest)) : Orderly Γ n rest :=
  ⟨h.records, fun x hx => h.calls x (List.mem_cons_of_mem _ hx), (List.pairwise_cons.1 h.order).2⟩

end Orderly

theorem orderly_of_run {Γ : Ctx} {config : Config} {key : KademliaKey} {offset : Time} {ok : NodeConfig → NodeLabel → Prop}
    {m : NodeConfig} (h : Run (nodeProgram Γ) ok (startNode config key offset) m) : Orderly Γ m.state m.stack := by
  obtain ⟨⟨hkey, hn⟩, hstack⟩ := KademliaNode.fromRequests_of_run h
  exact ⟨hn, hkey ▸ hstack, KademliaNode.disciplined_of_run h⟩

/-- A message for which the call draws a tag gets one that no record has, nor one that is about to be erased. -/
def DrawsNew (n : KademliaNode) (ch : Choice) (c : Call) (rest : List Call) : Prop :=
  ∀ msg cb mr t, c = .base (.send msg cb mr t) → msg.tag = 0 → n.dead = false →
    n.callbacks.find? ch.tag = none ∧ ch.tag ∉ erasing rest

/-- A tag that was not drawn before is new. -/
theorem drawsNew_of_run {Γ : Ctx} {config : Config} {key : KademliaKey} {offset : Time} {ok : NodeConfig → NodeLabel → Prop}
    {ch : Choice} {c : Call} {n : KademliaNode} {rest : List Call} {tr : NodeTrace}
    (hr : Run (nodeProgram Γ) ok (startNode config key offset) ⟨n, c :: rest, tr⟩)
    (hfresh : freshTags ⟨n, c :: rest, tr⟩ (.run ch) = true) : DrawsNew n ch c rest := by
  rintro msg cb mr t rfl ht hlive
  exact KademliaNode.fresh_of_run hr hfresh ht hlive

/-- What the functions of requests and the calls stand for. The two functions of a request stand for the same. -/
structure Tracker (α : Type) where
  fn : SendFn → List α
  call : Call → List α
  fn_ping : ∀ a cb, fn (.pingFailure a cb) = fn (.pingSuccess a cb)
  fn_find : ∀ t top, fn (.findFailure t top) = fn (.findSuccess t top)
  call_dispatch : ∀ m, call (.dispatch m) = []

namespace Tracker

variable {α : Type} (T : Tracker α)

/-- What a set stands for: what its functions for success do. -/
def ofSet (cb : CallbackSet SendFn) : List α := cb.successFns.flatMap T.fn

/-- What a call stands for. `send` stands for its set, and a function of a reply for itself. -/
def ofCall : Call → List α
  | .base (.send _ cb _ _) => T.ofSet cb
  | .base (.callback _ fn _) => T.fn fn
  | .base _ => []
  | c => T.call c

/-- What the records stand for, but for those that are being erased. -/
def ofRecords (erased : List Tag) (n : KademliaNode) : List α :=
  (n.callbacks.entries.filter (fun e => e.1 ∉ erased)).flatMap (fun e => T.ofSet e.2.callback)

/-- What a node and the calls on the stack stand for. -/
def pending (n : KademliaNode) (stack : List Call) : List α :=
  stack.flatMap T.ofCall ++ T.ofRecords (erasing stack) n

variable {T}
variable {Γ : Ctx} {key : KademliaKey} {ch : Choice} {c : Call} {n n' : KademliaNode} {p : KademliaNode × List Call}
  {rest : List Call}

/-- The functions for failure of a request stand for the same. -/
theorem ofSet_failure {msg : Message UInt32} {cb : CallbackSet SendFn} (h : IsRequest Γ key msg cb) :
    cb.failureFns.flatMap T.fn = T.ofSet cb := by
  cases h with
  | ping cb => simp [ofSet, CallbackSet.of, T.fn_ping]
  | find t top => simp [ofSet, CallbackSet.of, T.fn_find]

theorem ofRecords_eq (erased : List Tag) (n : KademliaNode) :
    T.ofRecords erased n = n.callbacks.collect (fun e => T.ofSet e.2.callback) erased :=
  congrArg _ (List.filter_congr (fun _ _ => decide_eq_decide.2 Iff.rfl))

/-- What the records stand for depends on them only. -/
theorem ofRecords_congr {erased : List Tag} (h : n'.callbacks = n.callbacks) : T.ofRecords erased n' = T.ofRecords erased n := by
  rw [ofRecords, ofRecords, h]

/-- A new record adds what it stands for. If its tag is not new, something is lost: the old record, or the new one when the
record of the tag is about to be erased. -/
theorem ofRecords_insert (T : Tracker α) (erased : List Tag) {tag : Tag} {r : SentMessage UInt32 SendFn}
    (h : n'.callbacks = n.callbacks.insert tag r) :
    ∃ lost, (T.ofRecords erased n' ++ lost).Perm (T.ofSet r.callback ++ T.ofRecords erased n) ∧
      (n.callbacks.find? tag = none → tag ∉ erased → lost = []) := by
  -- what records other than that of the tag stand for
  let others := (n.callbacks.erase tag).collect (fun e => T.ofSet e.2.callback) erased
  have hnew : (T.ofRecords erased n').Perm ((if tag ∈ erased then [] else T.ofSet r.callback) ++ others) := by
    rw [ofRecords_eq, h]
    exact SortedMap.collect_insert (fun e => T.ofSet e.2.callback) erased n.callbacks tag r
  have hold : ∃ old, (T.ofRecords erased n).Perm (old ++ others) ∧ (n.callbacks.find? tag = none → old = []) := by
    rw [ofRecords_eq]
    cases hf : n.callbacks.find? tag with
    | none => exact ⟨[], List.Perm.of_eq (SortedMap.collect_of_find?_eq_none (m := n.callbacks) _ _ hf).symm, fun _ => rfl⟩
    | some r₀ => exact ⟨_, SortedMap.collect_of_find? (fun e => T.ofSet e.2.callback) erased hf, fun h => by cases h⟩
  obtain ⟨old, hold, hnone⟩ := hold
  refine ⟨(if tag ∈ erased then T.ofSet r.callback else []) ++ old, ?_, fun hf he => by rw [if_neg he, hnone hf]; rfl⟩
  refine (hnew.append_right _).trans (List.Perm.trans ?_ (hold.symm.append_left _))
  by_cases he : tag ∈ erased
  · simp only [if_pos he, List.nil_append]
    exact (List.perm_append_comm_assoc _ _ _).trans (List.perm_append_comm.append_left _)
  · simp only [if_neg he, List.nil_append, List.append_assoc]
    exact List.perm_append_comm.append_left _

/-- A retry leaves what a record stands for. -/
theorem ofRecords_retry {erased : List Tag} {tag : Tag} {r : SentMessage UInt32 SendFn} {time : Time}
    (h : n'.callbacks = n.callbacks.insert tag (r.retry time)) (hf : n.callbacks.find? tag = some r) :
    T.ofRecords erased n' = T.ofRecords erased n := by
  rw [ofRecords, ofRecords, h, SortedMap.entries_insert_of_find? hf, List.filter_map, List.flatMap_map]
  rw [List.filter_congr (q := fun e => decide (e.1 ∉ erased)) (fun e _ => by
    simp only [Function.comp_apply]
    split_ifs with he
    · rw [he]
    · rfl)]
  refine List.flatMap_congr (fun e he => ?_)
  split_ifs with htag
  · have hmem := (List.mem_filter.1 he).1
    obtain ⟨tag', r'⟩ := e
    cases htag
    cases hf.symm.trans (SortedMap.find?_eq_some_iff.2 hmem)
    rfl
  · rfl

/-- A record that is being erased stood for something. -/
theorem ofRecords_fire {tag : Tag} {r : SentMessage UInt32 SendFn} (hf : n.callbacks.find? tag = some r) :
    (T.ofRecords [] n).Perm (T.ofSet r.callback ++ T.ofRecords [tag] n) := by
  rw [ofRecords_eq, ofRecords_eq, ← SortedMap.collect_erase]
  exact SortedMap.collect_of_find? (fun e => T.ofSet e.2.callback) [] hf

/-- A record that is erased stands for nothing more. -/
theorem ofRecords_erase {tag : Tag} (h : n'.callbacks = n.callbacks.erase tag) :
    T.ofRecords [] n' = T.ofRecords [tag] n := by
  rw [ofRecords_eq, ofRecords_eq, h, SortedMap.collect_erase]

/-! ## One call -/

theorem erasing_append (l l' : List Call) : erasing (l ++ l') = erasing l ++ erasing l' := List.filterMap_append

theorem erasing_eq_nil {l : List Call} (h : ∀ x ∈ l, x.erases = none) : erasing l = [] := List.filterMap_eq_nil_iff.2 h

/-- A call that changes no record and erases none leaves what the rest stands for. -/
theorem pending_append {cs : List Call} (hcallbacks : n'.callbacks = n.callbacks) (hcs : ∀ x ∈ cs, x.erases = none) :
    T.pending n' (cs ++ rest) = cs.flatMap T.ofCall ++ T.pending n rest := by
  rw [pending, pending, erasing_append, erasing_eq_nil hcs, List.nil_append, List.flatMap_append,
    ofRecords_congr hcallbacks, List.append_assoc]

/-- A call that erases nothing adds what it stands for. -/
theorem pending_cons (hc : c.erases = none) : T.pending n (c :: rest) = T.ofCall c ++ T.pending n rest := by
  have h : T.pending n ([c] ++ rest) = [c].flatMap T.ofCall ++ T.pending n rest :=
    pending_append rfl (by intro x hx; rw [List.mem_singleton.1 hx]; exact hc)
  simpa using h

/-- Of the calls of the base application only `send` and the functions of a reply stand for something. -/
theorem ofCall_base_eq_nil {b : BaseCall UInt32 SendFn} (h1 : ∀ m cb mr t, b ≠ .send m cb mr t)
    (h2 : ∀ ok fn m, b ≠ .callback ok fn m) : T.ofCall (.base b) = [] := by
  cases b with
  | send m cb mr t => exact absurd rfl (h1 m cb mr t)
  | callback ok fn m => exact absurd rfl (h2 ok fn m)
  | _ => rfl

/-- Firing a record: its callbacks stand for what it stood for. -/
theorem pending_fire (ok : Bool) {tag : Tag} {r : SentMessage UInt32 SendFn} {msg : Message UInt32} {tail : List Call}
    (hn : n.RecordsRequests Γ) (hf : n.callbacks.find? tag = some r) (hrest : erasing rest = [])
    (htail : tail.flatMap T.ofCall = []) (herase : erasing tail = [tag]) :
    (T.pending n ((r.callback.fns ok).map (fun fn => .base (.callback ok fn msg)) ++ tail ++ rest)).Perm
      (T.pending n rest) := by
  have hreq := hn _ _ (SortedMap.find?_eq_some_iff.1 hf)
  have htokens : ((r.callback.fns ok).map (fun fn => Call.base (.callback ok fn msg))).flatMap T.ofCall =
      T.ofSet r.callback := by
    rw [List.flatMap_map]
    cases ok with
    | true => rfl
    | false => exact ofSet_failure hreq
  have hnone : erasing ((r.callback.fns ok).map (fun fn => Call.base (.callback ok fn msg))) = [] := by
    refine erasing_eq_nil (fun x hx => ?_)
    obtain ⟨fn, -, rfl⟩ := List.mem_map.1 hx
    rfl
  rw [pending, pending, erasing_append, erasing_append, hnone, herase, hrest, List.flatMap_append, List.flatMap_append,
    htokens, htail]
  simp only [List.nil_append, List.append_nil]
  refine List.Perm.trans ?_ ((ofRecords_fire hf).symm.append_left (rest.flatMap T.ofCall))
  rw [List.append_assoc]
  exact List.perm_append_comm_assoc _ _ _

/-- Sending a request: its record stands for what the call stood for, or its failure does when the node is dead. Only with a
tag that is not new something is lost. -/
theorem pending_send (T : Tracker α) (rest : List Call) {msg : Message UInt32} {cb : CallbackSet SendFn} {mr : UInt32} {t : UInt64}
    (h : KademliaNode.exec Γ ch (.base (.send msg cb mr t)) n = some p)
    (hc : (Call.base (.send msg cb mr t)).FromRequests Γ n.key) :
    ∃ lost, (T.pending p.1 (p.2 ++ rest) ++ lost).Perm (T.pending n (.base (.send msg cb mr t) :: rest)) ∧
      ((msg.tag = 0 → n.dead = false → n.callbacks.find? ch.tag = none ∧ ch.tag ∉ erasing rest) → lost = []) := by
  have hcall : T.ofCall (.base (.send msg cb mr t)) = T.ofSet cb := rfl
  cases h
  rw [pending_cons rfl, hcall, KademliaNode.execBase_eq (by simp) (by simp)]
  simp only [BaseApplication.exec]
  cases hd : n.dead with
  | true =>
    rw [BaseApplication.send_of_dead hd]
    have hnone : ∀ x ∈ (cb.failureFns.map (fun fn => BaseCall.callback false fn msg)).map Call.base, x.erases = none := by
      simp [Call.erases]
    rw [pending_append (rfl : (n.setBase n.toBaseApplication).callbacks = n.callbacks) hnone]
    refine ⟨[], ?_, fun _ => rfl⟩
    rw [List.append_nil]
    refine List.Perm.append_right _ (List.Perm.of_eq ?_)
    rw [List.map_map]
    rcases hc with rfl | ⟨hreq, -⟩
    · rfl
    · rw [← ofSet_failure hreq, List.flatMap_map]
      rfl
  | false =>
    rcases hc with rfl | ⟨hreq, ht⟩
    · rw [BaseApplication.send_of_live hd]
      refine ⟨[], ?_, fun _ => rfl⟩
      rw [List.append_nil]
      refine List.Perm.of_eq (pending_append ?_ (by simp))
      rw [BaseApplication.queueOut_eq]
      rfl
    · have hne : cb.isEmpty = false := by cases hreq <;> rfl
      have htag : (msg.tagged ch.tag).tag = ch.tag := by simp only [Message.tagged, ht, if_true]
      rw [BaseApplication.send_of_live hd]
      simp only [List.map_nil, List.nil_append]
      have hinsert : (n.setBase ((BaseApplication.register n.toBaseApplication (msg.tagged ch.tag) cb mr
          (if t = 0 then defaultTimeout else t)).queueOut (msg.tagged ch.tag))).callbacks = n.callbacks.insert ch.tag
            (SentMessage.new (msg.tagged ch.tag) cb n.epoch (if t = 0 then defaultTimeout else t) mr) := by
        rw [BaseApplication.queueOut_eq]
        simp [KademliaNode.setBase, BaseApplication.register, hne, htag]
      obtain ⟨lost, hperm, hlost⟩ := ofRecords_insert T (erasing rest) hinsert
      refine ⟨lost, ?_, fun hfresh => hlost (hfresh ht trivial).1 (hfresh ht trivial).2⟩
      rw [pending, pending, List.append_assoc]
      exact (hperm.append_left _).trans (List.perm_append_comm_assoc _ _ _)

/-- The base hands on what it was given: a request it sends, records, retries, or ends stands for the same throughout. Only with
a tag that is not new something is lost. -/
theorem pending_base {b : BaseCall UInt32 SendFn} (h : KademliaNode.exec Γ ch (.base b) n = some p)
    (hb : ∀ ok fn m, b ≠ .callback ok fn m) (hn : n.RecordsRequests Γ) (hc : (Call.base b).FromRequests Γ n.key)
    (hd : Disciplined (.base b :: rest)) :
    ∃ lost, (T.pending p.1 (p.2 ++ rest) ++ lost).Perm (T.pending n (.base b :: rest)) ∧
      ((∀ msg cb mr t, b = .send msg cb mr t → msg.tag = 0 → n.dead = false →
        n.callbacks.find? ch.tag = none ∧ ch.tag ∉ erasing rest) → lost = []) := by
  by_cases hsend : ∃ msg cb mr t, b = .send msg cb mr t
  · obtain ⟨msg, cb, mr, t, rfl⟩ := hsend
    obtain ⟨lost, hperm, hlost⟩ := pending_send T rest h hc
    exact ⟨lost, hperm, fun hfresh => hlost (hfresh msg cb mr t rfl)⟩
  -- any other call loses nothing
  suffices hperm : (T.pending p.1 (p.2 ++ rest)).Perm (T.pending n (.base b :: rest)) by
    exact ⟨[], by rwa [List.append_nil], fun _ => rfl⟩
  have hnil : T.ofCall (.base b) = [] :=
    ofCall_base_eq_nil (fun m cb mr t he => hsend ⟨m, cb, mr, t, he⟩) hb
  -- a call that neither changes nor erases a record, and makes calls of the same kind
  have hplain : p.1.callbacks = n.callbacks → (Call.base b).erases = none → (∀ x ∈ p.2, x.erases = none) →
      p.2.flatMap T.ofCall = [] → (T.pending p.1 (p.2 ++ rest)).Perm (T.pending n (.base b :: rest)) := by
    intro h1 h2 h3 h4
    rw [pending_append h1 h3, h4, pending_cons h2, hnil]
  cases b with
  | send msg cb mr t => exact absurd ⟨_, _, _, _, rfl⟩ hsend
  | callback ok fn m => exact absurd rfl (hb ok fn m)
  | receive m =>
    have hrest := KademliaNode.erasing_eq_nil_of_outer hd rfl
    cases h
    rw [pending_cons rfl, hnil]
    rcases KademliaNode.receive_cases Γ ch m n with ⟨-, he⟩ | ⟨r, hf, he⟩
    · rw [he]; exact List.Perm.refl _
    · rw [he]
      exact pending_fire true hn hf hrest rfl rfl
  | overdue after =>
    have hrest := KademliaNode.erasing_eq_nil_of_outer hd rfl
    cases h
    rcases KademliaNode.overdue_cases Γ ch after n with ⟨-, he⟩ | ⟨tag, r, hnext, he | he | he⟩
    · exact hplain (by rw [he]) rfl (by simp [he]) (by rw [he]; rfl)
    · exact hplain (by rw [he]) rfl (by simp [he, Call.erases]) (by rw [he]; rfl)
    · exact hplain (by rw [he]) rfl (by simp [he, Call.erases]) (by rw [he]; rfl)
    · rw [pending_cons rfl, hnil, he]
      have hf := SortedMap.find?_eq_some_iff.2 (SortedMap.mem_of_next hnext)
      exact pending_fire false hn hf hrest rfl rfl
  | erase tag =>
    have hrest := KademliaNode.erasing_eq_nil_of_outer hd rfl
    cases h
    have herasing : erasing (.base (.erase tag) :: rest) = [tag] := congrArg (tag :: ·) hrest
    rw [pending, pending, herasing, List.flatMap_cons, hnil]
    refine List.Perm.of_eq (congrArg _ ?_)
    exact (congrArg (fun erased => T.ofRecords erased _) hrest).trans (ofRecords_erase rfl)
  | attemptRetry tag =>
    cases h
    rcases BaseApplication.exec_callbacks ch.tag (.attemptRetry tag) n.toBaseApplication with
      he | ⟨_, _, _, _, hne, _⟩ | ⟨_, hne, _⟩ | ⟨tag', r, heq, hf, he⟩
    · exact hplain he rfl (by simp [KademliaNode.execBase, BaseApplication.exec]) rfl
    · cases hne
    · cases hne
    · rw [pending_cons rfl, hnil, pending, pending]
      exact List.Perm.of_eq (congrArg _ (ofRecords_retry he hf))
  | tick time =>
    cases h
    refine hplain (by simp only [KademliaNode.execBase, BaseApplication.exec]; split <;> rfl) rfl ?_ ?_
    · simp only [KademliaNode.execBase, BaseApplication.exec]; split <;> simp [Call.erases]
    · simp only [KademliaNode.execBase, BaseApplication.exec]; split <;> rfl
  | drain =>
    cases h
    refine hplain (by simp only [KademliaNode.execBase, BaseApplication.exec]; split <;> rfl) rfl ?_ ?_
    · simp only [KademliaNode.execBase, BaseApplication.exec]; split <;> simp [Call.erases]
    · simp only [KademliaNode.execBase, BaseApplication.exec]; split <;> rfl
  | handleMessage m =>
    cases h
    refine hplain rfl rfl (by simp [KademliaNode.execBase, Call.erases]) ?_
    simp [KademliaNode.execBase, ofCall, T.call_dispatch]
  | recv m =>
    cases h
    refine hplain ?_ rfl (by simp [KademliaNode.execBase, BaseApplication.exec]) rfl
    simp only [KademliaNode.execBase, BaseApplication.exec]
    rw [BaseApplication.queueIn_eq]
    rfl
  | _ =>
    cases h
    exact hplain rfl rfl (by simp [KademliaNode.execBase, BaseApplication.exec]) rfl

/-- Every call but one of the base leaves what the rest stands for, and makes its calls stand for what they will. -/
theorem pending_other (T : Tracker α) (rest : List Call) (h : KademliaNode.exec Γ ch c n = some p)
    (hc : ∀ b, c = .base b → ∃ ok fn m, b = .callback ok fn m) :
    T.pending p.1 (p.2 ++ rest) = p.2.flatMap T.ofCall ++ T.pending n rest ∧
      T.pending n (c :: rest) = T.ofCall c ++ T.pending n rest := by
  have hne : ∀ b, (∀ ok fn m, b ≠ .callback ok fn m) → c ≠ .base b := by
    rintro b hb rfl
    obtain ⟨ok, fn, m, rfl⟩ := hc b rfl
    exact hb ok fn m rfl
  have hcallbacks : p.1.callbacks = n.callbacks := by
    rcases KademliaNode.exec_callbacks h with he | ⟨m, cb, mr, t, rfl, -⟩ | ⟨tag, rfl, -⟩ | ⟨tag, r, rfl, -⟩
    · exact he
    · exact absurd rfl (hne _ (by simp))
    · exact absurd rfl (hne _ (by simp))
    · exact absurd rfl (hne _ (by simp))
  refine ⟨pending_append hcallbacks (fun x hx => ?_), pending_cons ?_⟩
  · by_contra hx'
    rcases KademliaNode.makes_erases (KademliaNode.exec_makes h x hx) hx' with ⟨after, rfl⟩ | ⟨m, rfl⟩
    · exact hne _ (by simp) rfl
    · exact hne _ (by simp) rfl
  · cases c with
    | base b =>
      obtain ⟨ok, fn, m, rfl⟩ := hc b rfl
      rfl
    | _ => rfl

/-- A call that comes in stands for what it will, and leaves the rest. -/
theorem pending_enter (hc : c.isEvent = true) :
    T.pending n (c :: rest) = T.ofCall c ++ T.pending n rest := pending_cons (KademliaNode.erases_of_isEvent hc)

/-- A call of the base that comes in stands for nothing. -/
theorem ofCall_base_of_isEvent {b : BaseCall UInt32 SendFn} (hc : (Call.base b).isEvent = true) : T.ofCall (.base b) = [] := by
  cases b with
  | send m cb mr t =>
    rw [KademliaNode.eq_empty_of_isEmpty hc]
    rfl
  | callback ok fn m => cases hc
  | _ => rfl

/-- A step that runs a call: either a call of the base, which hands on what it was given, or another one. With a tag that was
drawn before, something may be lost. -/
theorem pending_step (ho : Orderly Γ n (c :: rest)) (h : KademliaNode.exec Γ ch c n = some p) :
    (∃ b lost, c = .base b ∧ (∀ ok fn m, b ≠ .callback ok fn m) ∧
        (T.pending p.1 (p.2 ++ rest) ++ lost).Perm (T.pending n (c :: rest)) ∧ (DrawsNew n ch c rest → lost = [])) ∨
      ((∀ b, c = .base b → ∃ ok fn m, b = .callback ok fn m) ∧
        T.pending p.1 (p.2 ++ rest) = p.2.flatMap T.ofCall ++ T.pending n rest ∧
        T.pending n (c :: rest) = T.ofCall c ++ T.pending n rest) := by
  by_cases hc : ∀ b, c = .base b → ∃ ok fn m, b = .callback ok fn m
  · exact Or.inr ⟨hc, pending_other T rest h hc⟩
  · push Not at hc
    obtain ⟨b, rfl, hb⟩ := hc
    obtain ⟨lost, hperm, hlost⟩ := pending_base (T := T) h hb ho.records (ho.calls _ List.mem_cons_self) ho.order
    refine Or.inl ⟨b, lost, rfl, hb, hperm, fun hfresh => hlost ?_⟩
    rintro msg cb mr t rfl ht hlive
    exact hfresh msg cb mr t rfl ht hlive

end Tracker

end Dhtsim
