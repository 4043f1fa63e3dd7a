import Dhtsim.Lemmas.Traffic

/-!
# How often a request is sent again

A record counts the retries of its request, and there is none without a record that has retries left: so a request is sent again
at most as often as it was sent with, and one without callbacks, which has no record, never.
-/

namespace Dhtsim

open CallMachine KademliaNode

/-- How often nodes tried the request of a tag again. -/
def retried {N : Nat} (tag : Tag) (tr : NetworkTrace N) : Nat :=
  tr.countP (fun e => match e.1 with
    | .app _ (.base (.attemptRetry t)) => decide (t = tag)
    | _ => false)

section Counting

variable {N : Nat} {i : Fin N} {tag t : Tag} {ch : NetworkChoice} {x : NetworkCall N} {tr : NetworkTrace N}

@[simp] theorem retried_attemptRetry : retried tag ((.app i (.base (.attemptRetry t)), ch) :: tr) =
    retried tag tr + if t = tag then 1 else 0 := by
  simp [retried, List.countP_cons]

theorem retried_of_ne (hx : ∀ i t, x ≠ .app i (.base (.attemptRetry t))) : retried tag ((x, ch) :: tr) = retried tag tr := by
  refine List.countP_cons_of_neg ?_
  dsimp only
  split
  · rename_i i t
    exact absurd rfl (hx i t)
  · simp

end Counting

/-! ## A node tries again what it has a record of -/

namespace KademliaNode

variable {Γ : Ctx} {ch : Choice} {c : Call} {n : KademliaNode} {p : KademliaNode × List Call}

/-- Only the loop over the records makes a retry, of a record with retries left, and goes on with the next record. -/
theorem exec_retry (h : exec Γ ch c n = some p) : (∀ x ∈ p.2, ∀ tag, x ≠ .base (.attemptRetry tag)) ∨
    ∃ tag r, p = (n, [.base (.attemptRetry tag), .base (.overdue (some tag))]) ∧ n.callbacks.find? tag = some r ∧
      r.needsRetry = true := by
  by_cases hc : ∃ after, c = .base (.overdue after)
  · obtain ⟨after, rfl⟩ := hc
    cases h
    simp only [execBase, BaseApplication.exec]
    split
    · exact Or.inl (by simp)
    · rename_i tag r hn
      split_ifs with hdue hr
      · exact Or.inr ⟨tag, r, rfl, SortedMap.find?_eq_some_iff.2 (SortedMap.mem_of_next hn), hr⟩
      · left
        rintro x hx t rfl
        simp at hx
      · exact Or.inl (by simp)
  · left
    rintro x hx tag rfl
    cases exec_makes h _ hx with
    | retry hn hr => exact hc ⟨_, rfl⟩

/-- In a node a retry runs at once, on a record with retries left. -/
theorem retry_of_run {config : Config} {key : KademliaKey} {offset : Time} {ok : NodeConfig → NodeLabel → Prop}
    {m : NodeConfig} (h : Run (nodeProgram Γ) ok (startNode config key offset) m) :
    (∀ c ∈ m.stack.tail, ∀ tag, c ≠ .base (.attemptRetry tag)) ∧
      ∀ tag rest, m.stack = .base (.attemptRetry tag) :: rest →
        ∃ r, m.state.callbacks.find? tag = some r ∧ r.needsRetry = true := by
  refine h.invariant (I := fun m => (∀ c ∈ m.stack.tail, ∀ tag, c ≠ .base (.attemptRetry tag)) ∧
    ∀ tag rest, m.stack = .base (.attemptRetry tag) :: rest →
      ∃ r, m.state.callbacks.find? tag = some r ∧ r.needsRetry = true) (by simp [startNode]) ?_
  rintro m l m' - ⟨hbelow, -⟩ - hs
  have hnone : (∀ c ∈ m'.stack, ∀ tag, c ≠ .base (.attemptRetry tag)) →
      (∀ c ∈ m'.stack.tail, ∀ tag, c ≠ .base (.attemptRetry tag)) ∧
        ∀ tag rest, m'.stack = .base (.attemptRetry tag) :: rest →
          ∃ r, m'.state.callbacks.find? tag = some r ∧ r.needsRetry = true := by
    intro h
    refine ⟨fun c hc => h c (List.mem_of_mem_tail hc), fun tag rest heq => ?_⟩
    exact absurd rfl (h _ (heq ▸ List.mem_cons_self) tag)
  have hpublic : ∀ c : Call, c.isEvent = true → ∀ tag, c ≠ .base (.attemptRetry tag) := by
    rintro c hc tag rfl
    cases hc
  cases hs with
  | @run ch c rest n tr n' cs hw he =>
    rcases exec_retry he with hcs | ⟨tag, r, heq, hf, hr⟩
    · refine hnone (fun c hc => ?_)
      rcases List.mem_append.1 hc with hc | hc
      · exact hcs c hc
      · exact hbelow c hc
    · cases heq
      refine ⟨fun c hc t => ?_, fun t tail heq => ?_⟩
      · rcases List.mem_cons.1 hc with rfl | hc
        · simp
        · exact hbelow c hc t
      · cases heq
        exact ⟨r, hf, hr⟩
  | event hc => exact hnone (fun c h => List.mem_singleton.1 h ▸ hpublic _ hc)
  | @reentry c f rest n tr hf hc =>
    refine hnone (fun x hx => ?_)
    rcases List.mem_cons.1 hx with rfl | hx
    · exact hpublic x (isEvent_of_enters (Γ := Γ) (Or.inr hc))
    · rcases List.mem_cons.1 hx with rfl | hx
      · rintro tag rfl
        cases hf
      · exact hbelow x hx
  | leave hf => exact hnone hbelow

end KademliaNode

/-! ## A request is tried again as often as it was sent with -/

variable {N : Nat} {Γ : Ctx} {config : Fin N → Config} {key : Fin N → KademliaKey} {offset : Fin N → Time} {limit : UInt32}
  {ok : NetworkConfig N → NetworkLabel N → Prop} {m m' : NetworkConfig N} {i : Fin N} {tag : Tag}

/-- What is known of the retries in a network. -/
structure RetryState (m : NetworkConfig N) : Prop where
  bound : ∀ q ∈ requests m.trace, retried q.message.tag m.trace ≤ if q.callback.isEmpty then 0 else q.maxRetries.toNat
  records : ∀ i tag r, (tag, r) ∈ (m.state.applications i).callbacks.entries → ∃ q ∈ requests m.trace,
    q.message.tag = tag ∧ q.callback.isEmpty = false ∧ r.maxRetries.toNat = q.maxRetries.toNat ∧
      r.retries.toNat = retried tag m.trace
  drawn : ∀ tag, retried tag m.trace ≠ 0 → ∃ q ∈ requests m.trace, q.message.tag = tag

namespace RetriesAux

/-- What a node tries again it has a record of, with retries left. -/
theorem record_of_retry (h : Run (networkProgram Γ N) ok (startNetwork config key offset limit) m)
    {rest : List (NetworkCall N)} (hstack : m.stack = .app i (.base (.attemptRetry tag)) :: rest) :
    ∃ r, (m.state.applications i).callbacks.find? tag = some r ∧ r.needsRetry = true := by
  refine (retry_of_run (run_node h i)).2 tag (rest.flatMap (NetworkCall.within i)) ?_
  rw [nodeConfig, hstack, List.flatMap_cons, NetworkCall.within_app_self, List.singleton_append]

variable {w w' : CentralizedNetwork N} {x : NetworkCall N} {rest cs : List (NetworkCall N)} {tr : NetworkTrace N}
  {ch : NetworkChoice}

/-- Two records of one tag are records of one node. -/
theorem requester_of_record (hT : TrafficState Γ key ok (startNetwork config key offset limit) m) {i j : Fin N} {tag : Tag}
    {r r' : SentMessage UInt32 SendFn} (hi : (tag, r) ∈ (m.state.applications i).callbacks.entries)
    (hj : (tag, r') ∈ (m.state.applications j).callbacks.entries) : i = j := by
  obtain ⟨q, hq, rfl, -, -, ht⟩ := hT.records i tag r hi
  obtain ⟨q', hq', rfl, -, -, ht'⟩ := hT.records j tag r' hj
  rw [hT.eq_of_tag hq hq' (ht.trans ht'.symm)]

/-- A record after a step without a retry was there before, or is that of the request just sent. -/
theorem record_cases (he : CentralizedNetwork.exec Γ ch x w = some (w', cs))
    (hx : ∀ i tag, x ≠ .app i (.base (.attemptRetry tag))) {r : SentMessage UInt32 SendFn}
    (hr : (tag, r) ∈ (w'.applications i).callbacks.entries) :
    (tag, r) ∈ (w.applications i).callbacks.entries ∨
      ∃ m cb mr t, x = .app i (.base (.send m cb mr t)) ∧ (w.applications i).dead = false ∧ cb.isEmpty = false ∧
        tag = (m.tagged ch.tag).tag ∧ r.retries = 0 ∧ r.maxRetries = mr.toUInt64 := by
  rcases CentralizedNetwork.applications_cases he i with h | ⟨c, q, rfl, h, hi⟩ | ⟨total, rfl, hi⟩ | ⟨a, rfl, hi⟩
  · exact Or.inl (h ▸ hr)
  · rw [hi] at hr
    rcases KademliaNode.exec_callbacks h with heq | ⟨m, cb, mr, t, rfl, hd, hcb, heq⟩ | ⟨t, rfl, heq⟩ | ⟨t, r, rfl, hf, heq⟩
    · exact Or.inl (heq ▸ hr)
    · rw [heq, SortedMap.mem_entries_insert] at hr
      rcases hr with hr | ⟨hr, -⟩
      · cases hr
        exact Or.inr ⟨m, cb, mr, t, rfl, hd, hcb, rfl, rfl, rfl⟩
      · exact Or.inl hr
    · rw [heq, SortedMap.mem_entries_erase] at hr
      exact Or.inl hr.1
    · exact absurd rfl (hx i t)
  · rw [hi] at hr
    exact Or.inl hr
  · rw [hi] at hr
    exact Or.inl hr

/-- A retry replaces the record of its tag and leaves the others. -/
theorem record_of_attemptRetry (he : CentralizedNetwork.exec Γ ch (.app i (.base (.attemptRetry tag))) w = some (w', cs))
    {r r' : SentMessage UInt32 SendFn} (hf : (w.applications i).callbacks.find? tag = some r) {j : Fin N} {t : Tag}
    (hr : (t, r') ∈ (w'.applications j).callbacks.entries) :
    (i = j ∧ t = tag ∧ r' = r.retry (w.applications i).epoch) ∨
      ((t, r') ∈ (w.applications j).callbacks.entries ∧ (i = j → t ≠ tag)) := by
  obtain ⟨q, hq, heq⟩ := CentralizedNetwork.exec_app he
  cases heq
  cases hq
  by_cases hj : j = i
  · subst hj
    rw [CentralizedNetwork.applications_setApplication_self] at hr
    have hcallbacks : (BaseApplication.attemptRetry ch.tag tag (w.applications j).toBaseApplication).callbacks =
        (w.applications j).callbacks.insert tag (r.retry (w.applications j).epoch) := by
      simp only [BaseApplication.attemptRetry, hf, BaseApplication.send_empty_callbacks]
      rw [BaseApplication.send_eq]
    have hr : (t, r') ∈ (BaseApplication.attemptRetry ch.tag tag (w.applications j).toBaseApplication).callbacks.entries := hr
    rw [hcallbacks, SortedMap.mem_entries_insert] at hr
    rcases hr with hr | ⟨hr, hne⟩
    · cases hr
      exact Or.inl ⟨rfl, rfl, rfl⟩
    · exact Or.inr ⟨hr, fun _ => hne⟩
  · rw [CentralizedNetwork.applications_setApplication_of_ne w hj] at hr
    exact Or.inr ⟨hr, fun h => absurd h.symm hj⟩

/-- A retry is counted, in the record and in the trace. -/
theorem retryState_attemptRetry (hT : TrafficState Γ key ok (startNetwork config key offset limit)
      ⟨w, .app i (.base (.attemptRetry tag)) :: rest, tr⟩)
    (hI : RetryState ⟨w, .app i (.base (.attemptRetry tag)) :: rest, tr⟩) {r : SentMessage UInt32 SendFn}
    (hf : (w.applications i).callbacks.find? tag = some r) (hr : r.needsRetry = true)
    (he : CentralizedNetwork.exec Γ ch (.app i (.base (.attemptRetry tag))) w = some (w', cs)) :
    RetryState ⟨w', cs ++ rest, (.app i (.base (.attemptRetry tag)), ch) :: tr⟩ := by
  have hmem : (tag, r) ∈ (w.applications i).callbacks.entries := SortedMap.find?_eq_some_iff.1 hf
  obtain ⟨q, hq, rfl, hcb, hmax, hcount⟩ := hI.records i tag r hmem
  have hcount : r.retries.toNat = retried q.message.tag tr := hcount
  have hlt : r.retries.toNat < r.maxRetries.toNat := UInt64.lt_iff_toNat_lt.1 (of_decide_eq_true hr)
  have hbound : r.maxRetries.toNat < 2 ^ 64 := r.maxRetries.toNat_lt
  refine ⟨fun q' hq' => ?_, fun j t r' hr' => ?_, fun t ht => ?_⟩
  · rw [retried_attemptRetry]
    by_cases heq : q.message.tag = q'.message.tag
    · obtain rfl := hT.eq_of_tag hq hq' heq
      simp only [hcb, Bool.false_eq_true, if_false, if_true]
      omega
    · rw [if_neg heq]
      exact hI.bound q' hq'
  · rw [retried_attemptRetry]
    rcases record_of_attemptRetry he hf hr' with ⟨rfl, rfl, rfl⟩ | ⟨hold, hne⟩
    · refine ⟨q, hq, rfl, hcb, hmax, ?_⟩
      rw [if_pos rfl, ← hcount, SentMessage.retry, UInt64.toNat_add]
      exact Nat.mod_eq_of_lt (by simp; omega)
    · have htag : q.message.tag ≠ t := by
        rintro rfl
        exact hne (requester_of_record hT hmem hold) rfl
      rw [if_neg htag]
      exact hI.records j t r' hold
  · rw [retried_attemptRetry] at ht
    by_cases heq : q.message.tag = t
    · exact ⟨q, hq, heq⟩
    · rw [if_neg heq] at ht
      exact hI.drawn t ht

/-- A tag that is drawn was never tried again. -/
theorem retried_fresh {c : Message UInt32} {cb : CallbackSet SendFn} {mr : UInt32} {t : UInt64}
    (hfresh : freshNetworkTags ⟨w, .app i (.base (.send c cb mr t)) :: rest, tr⟩ (.run ch) = true)
    (hI : RetryState ⟨w, .app i (.base (.send c cb mr t)) :: rest, tr⟩) (ht : c.tag = 0)
    (hlive : (w.applications i).dead = false) : retried ch.tag tr = 0 := by
  by_contra hne
  obtain ⟨q, hq, htag⟩ := hI.drawn ch.tag hne
  exact (fresh_tag hfresh ht hlive).2 q hq htag

/-- A step without a retry keeps what is known of the retries. -/
theorem retryState_run (hr : Run (networkProgram Γ N) ok (startNetwork config key offset limit) ⟨w, x :: rest, tr⟩)
    (hfresh : freshNetworkTags ⟨w, x :: rest, tr⟩ (.run ch) = true) (hI : RetryState ⟨w, x :: rest, tr⟩)
    (he : CentralizedNetwork.exec Γ ch x w = some (w', cs)) (hx : ∀ i tag, x ≠ .app i (.base (.attemptRetry tag))) :
    RetryState ⟨w', cs ++ rest, (x, ch) :: tr⟩ := by
  have hold : ∀ i tag r, (tag, r) ∈ (w.applications i).callbacks.entries → ∃ q ∈ requests ((x, ch) :: tr),
      q.message.tag = tag ∧ q.callback.isEmpty = false ∧ r.maxRetries.toNat = q.maxRetries.toNat ∧
        r.retries.toNat = retried tag tr := by
    intro i tag r hr
    obtain ⟨q, hq, h⟩ := hI.records i tag r hr
    exact ⟨q, requests_subset_cons _ _ hq, h⟩
  refine ⟨fun q hq => ?_, fun i tag r hrec => ?_, fun tag ht => ?_⟩
  · rw [retried_of_ne hx]
    rcases requests_cons (x, ch) tr with heq | ⟨i, m, cb, mr, t, ch', heq, ht, hlive, hreq⟩
    · exact hI.bound q (heq ▸ hq)
    · cases heq
      rw [hreq] at hq
      rcases List.mem_cons.1 hq with rfl | hq
      · have hnone : retried ch.tag tr = 0 := retried_fresh hfresh hI ht ((live_iff hr i).2 hlive)
        simp [Message.tagged, ht, hnone]
      · exact hI.bound q hq
  · rw [retried_of_ne hx]
    rcases record_cases he hx hrec with h | ⟨m, cb, mr, t, rfl, hlive, hcb, rfl, hretries, hmax⟩
    · exact hold i tag r h
    · have ht : m.tag = 0 := by
        rcases (fromRequests_of_run (run_node hr i)).2 _ (mem_stack_nodeConfig List.mem_cons_self) with hempty | ⟨-, ht⟩
        · rw [hempty] at hcb
          cases hcb
        · exact ht
      have htag : (m.tagged ch.tag).tag = ch.tag := by simp [Message.tagged, ht]
      rw [requests_send ht ((live_iff hr i).1 hlive), htag, retried_fresh hfresh hI ht hlive, hretries, hmax]
      exact ⟨_, List.mem_cons_self, htag, hcb, UInt32.toNat_toUInt64 mr, rfl⟩
  · rw [retried_of_ne hx] at ht
    obtain ⟨q, hq, h⟩ := hI.drawn tag ht
    exact ⟨q, requests_subset_cons _ _ hq, h⟩

end RetriesAux

open RetriesAux

theorem retryState_of_run (hΓ : Γ.Decodes) (hok : ∀ m l, ok m l → freshNetworkTags m l = true)
    (h : Run (networkProgram Γ N) ok (startNetwork config key offset limit) m) : RetryState m := by
  refine h.invariant (I := RetryState) ⟨by simp [startNetwork, requests], ?_, by simp [startNetwork, retried]⟩ ?_
  · intro i tag r hr
    simp [startNetwork, CentralizedNetwork.init, KademliaNode.init] at hr
  · intro m l m' hr hI hl hs
    have hT := trafficState_of_run hΓ hok hr
    cases hs with
    | @run ch x rest w tr w' cs hw he =>
      by_cases hx : ∃ i tag, x = .app i (.base (.attemptRetry tag))
      · obtain ⟨i, tag, rfl⟩ := hx
        obtain ⟨r, hf, hneeds⟩ := record_of_retry hr rfl
        exact retryState_attemptRetry hT hI hf hneeds he
      · exact retryState_run hr (hok _ _ hl) hI he (fun i tag heq => hx ⟨i, tag, heq⟩)
    | _ => exact ⟨hI.bound, hI.records, hI.drawn⟩

end Dhtsim
