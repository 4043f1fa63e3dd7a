import Dhtsim.Lemmas.Pace

/-!
# To which lookup a reply belongs

A lookup for a target may follow an earlier one for the same target. What is given to it as a reply is one to a request of its own
(`Own`), and the node that replied did so while the lookup was underway (`underway_of_asked`).
-/

namespace Dhtsim

open CallMachine KademliaNode

/-- The request that a call sends for the lookup for a target, with the tag that it draws. -/
def Call.asksWith (t : KademliaKey) (ch : Choice) : Call → List (Message UInt32)
  | .base (.send msg cb mr time) =>
    if msg.tag = 0 ∧ (Call.base (.send msg cb mr time)).asks t ≠ [] then [msg.tagged ch.tag] else []
  | _ => []

/-- The requests that the lookup for the target sent. -/
def askedWith (t : KademliaKey) (ntr : NodeTrace) : List (Message UInt32) := sinceErase t (fun e => e.1.asksWith t e.2) ntr

/-- What a node has to do for the lookup of a target is about requests that the lookup sent itself. -/
structure Own (t : KademliaKey) (m : NodeConfig) : Prop where
  records : ∀ tag r, m.state.callbacks.find? tag = some r → r.callback.belongsTo t = true →
    .base (.erase tag) ∉ m.stack → tag ∈ (askedWith t m.trace).map (·.tag)
  replies : ∀ fn msg, .base (.callback true fn msg) ∈ m.stack → fn.lookupTarget = some t →
    msg.tag ∈ (askedWith t m.trace).map (·.tag)

namespace AskedAux

variable {Γ : Ctx} {config : Config} {key : KademliaKey} {offset : Time} {t : KademliaKey} {n : KademliaNode} {rest : List Call}
  {ntr : NodeTrace} {m m' : NodeConfig} {l : NodeLabel} {tag : Tag} {r : SentMessage UInt32 SendFn} {ch : Choice} {c : Call}
  {p : KademliaNode × List Call}

/-! ## One node -/

/-- When the finder of a lookup is erased, no success callback of one of its requests waits. -/
theorem reply_of_closing (h : LookupState Γ False t n (.eraseFinder t :: rest) ntr) {fn : SendFn} {msg : Message UInt32}
    (hmem : .base (.callback true fn msg) ∈ rest) : fn.lookupTarget ≠ some t := by
  intro htarget
  have hone : (LookupAux.tracker t).pending n (.eraseFinder t :: rest) = .closing :: (LookupAux.tracker t).pending n rest := by
    rw [Tracker.pending_cons rfl]
    exact congrArg (· ++ _) (if_pos rfl)
  obtain ⟨-, -, hnil, -⟩ := LookupAux.lookupState_front h hone
  have hcall : (LookupAux.tracker t).fn fn = [] := List.flatMap_eq_nil_iff.1 (List.append_eq_nil_iff.1 hnil).1 _ hmem
  cases fn with
  | findSuccess t' top | findFailure t' top =>
    cases htarget
    simp [LookupAux.tracker] at hcall
  | _ => cases htarget

/-- As long as a record is there, whoever is about to erase it still is. -/
theorem erase_waits (he : exec Γ ch c n = some p) (hrec : p.1.callbacks.find? tag = some r)
    (hmem : .base (.erase tag) ∈ c :: rest) : .base (.erase tag) ∈ p.2 ++ rest := by
  rcases List.mem_cons.1 hmem with rfl | hmem
  · cases he
    have hnone : (n.callbacks.erase tag).find? tag = none := SortedMap.find?_erase_self ..
    exact absurd (hnone.symm.trans hrec) (by simp)
  · exact List.mem_append_right _ hmem

theorem askedWith_cons (hc : c ≠ .eraseFinder t) : askedWith t ((c, ch) :: ntr) = askedWith t ntr ++ c.asksWith t ch := if_neg hc

/-- A request of a lookup draws a tag. -/
theorem asksWith_of_belongsTo {k : KademliaKey} {msg : Message UInt32} {cb : CallbackSet SendFn} {mr : UInt32} {time : UInt64}
    (hreq : IsRequest Γ k msg cb) (ht : msg.tag = 0) (hb : cb.belongsTo t = true) :
    (Call.base (.send msg cb mr time)).asksWith t ch = [msg.tagged ch.tag] := by
  have hone : ((Call.base (.send msg cb mr time)).asks t).length = 1 := PaceAux.asks_of_belongsTo hreq hb
  have hasks : (Call.base (.send msg cb mr time)).asks t ≠ [] := by
    intro hnil
    rw [hnil] at hone
    cases hone
  exact if_pos ⟨ht, hasks⟩

/-- A record after a step that is not about to be erased is one of before, or that of a request that the step sends. -/
theorem own_records (hI : Own t ⟨n, c :: rest, ntr⟩) (hcalls : c.FromRequests Γ key) (he : exec Γ ch c n = some p)
    (hc : c ≠ .eraseFinder t) (hrec : p.1.callbacks.find? tag = some r) (hb : r.callback.belongsTo t = true)
    (hnot : .base (.erase tag) ∉ p.2 ++ rest) : tag ∈ (askedWith t ((c, ch) :: ntr)).map (·.tag) := by
  rw [askedWith_cons hc, List.map_append]
  have hold : ∀ r', n.callbacks.find? tag = some r' → r'.callback = r.callback →
      tag ∈ (askedWith t ntr).map (·.tag) ++ (c.asksWith t ch).map (·.tag) :=
    fun r' hr' hcb => List.mem_append_left _ (hI.records tag r' hr' (hcb ▸ hb) (fun hmem => hnot (erase_waits he hrec hmem)))
  rcases exec_callbacks he with hsame | ⟨msg, cb, mr, time, rfl, -, hcb, hnew⟩ | ⟨tag', rfl, herased⟩ | ⟨tag', r', rfl, hr', hnew⟩
  · exact hold r (hsame ▸ hrec) rfl
  · rw [hnew, SortedMap.find?_insert] at hrec
    split at hrec
    · rename_i htag
      cases hrec
      rcases hcalls with rfl | ⟨hreq, ht⟩
      · cases hcb
      · rw [asksWith_of_belongsTo hreq ht hb, htag]
        exact List.mem_append_right _ (List.mem_singleton_self _)
    · exact hold r hrec rfl
  · rw [herased, SortedMap.find?_erase] at hrec
    split at hrec
    · cases hrec
    · exact hold r hrec rfl
  · rw [hnew, SortedMap.find?_insert] at hrec
    split at hrec
    · rename_i htag
      cases hrec
      exact hold r' (htag ▸ hr') rfl
    · exact hold r hrec rfl

/-- A success callback that a step makes run is that of a record. -/
theorem own_replies (hI : Own t ⟨n, c :: rest, ntr⟩) (ho : Disciplined (c :: rest)) (he : exec Γ ch c n = some p)
    (hc : c ≠ .eraseFinder t) {fn : SendFn} {msg : Message UInt32} (hmem : .base (.callback true fn msg) ∈ p.2 ++ rest)
    (hfn : fn.lookupTarget = some t) : msg.tag ∈ (askedWith t ((c, ch) :: ntr)).map (·.tag) := by
  rw [askedWith_cons hc, List.map_append]
  refine List.mem_append_left _ ?_
  rcases List.mem_append.1 hmem with hmem | hmem
  · cases exec_makes he _ hmem with
    | @resolve _ r _ hf hin =>
      refine hI.records msg.tag r hf ?_ (fun herase => ?_)
      · refine List.any_eq_true.2 ⟨fn, List.mem_append_left _ hin, ?_⟩
        exact decide_eq_true hfn
      · -- a node that takes a reply is not about to erase a record
        have hnil : erasing rest = [] := erasing_eq_nil_of_outer ho rfl
        have hrest := (List.mem_cons.1 herase).resolve_left (by simp)
        have herasing : msg.tag ∈ erasing rest := List.mem_filterMap.2 ⟨_, hrest, rfl⟩
        rw [hnil] at herasing
        cases herasing
  · exact hI.replies fn msg (List.mem_cons_of_mem _ hmem) hfn

/-- In every run in which no tag is drawn twice, a lookup deals with its own requests only. -/
theorem own_of_run (h : Run (nodeProgram Γ) (fun m l => freshTags m l = true) (startNode config key offset) m) (t : KademliaKey) :
    Own t m := by
  refine h.invariant (I := Own t) ⟨fun tag r hrec => absurd hrec (by simp [startNode, KademliaNode.init]),
    fun fn msg hmem => absurd hmem List.not_mem_nil⟩ ?_
  intro m l m' hr hI hl hs
  have hnew : ∀ {x : Call} {fn : SendFn} {msg : Message UInt32}, x.isEvent = true → x ≠ .base (.callback true fn msg) := by
    rintro x fn msg hx rfl
    cases hx
  cases hs with
  | @run ch c rest n ntr n' cs hw he =>
    have hlookup : LookupState Γ False t n (c :: rest) ntr := lookupState_of_run False (fun _ _ hl => Or.inr hl) hr t
    have hreqs := fromRequests_of_run hr
    by_cases hc : c = .eraseFinder t
    · subst hc
      have he : exec Γ ch (.eraseFinder t) n = some (n', cs) := he
      cases he
      refine ⟨fun tag r hrec hb hnot => ?_, fun fn msg hmem hfn => ?_⟩
      · exact absurd (PaceAux.erase_of_closing hlookup hreqs.1.2 hrec hb) hnot
      · exact absurd hfn (reply_of_closing hlookup hmem)
    · refine ⟨fun tag r hrec hb hnot => ?_, fun fn msg hmem hfn => ?_⟩
      · exact own_records hI (hreqs.2 c List.mem_cons_self) he hc hrec hb hnot
      · exact own_replies hI (disciplined_of_run hr) he hc hmem hfn
  | @event c n ntr hc =>
    refine ⟨fun tag r hrec hb _ => hI.records tag r hrec hb List.not_mem_nil, fun fn msg hmem _ => ?_⟩
    exact absurd (List.mem_singleton.1 hmem).symm (hnew hc)
  | @reentry c f rest n ntr hf hc =>
    have hevent : c.isEvent = true := isEvent_of_enters (Γ := Γ) (Or.inr hc)
    refine ⟨fun tag r hrec hb hnot => ?_, fun fn msg hmem hfn => ?_⟩
    · exact hI.records tag r hrec hb (fun hmem => hnot (List.mem_cons_of_mem _ hmem))
    · exact hI.replies fn msg ((List.mem_cons.1 hmem).resolve_left (fun heq => hnew hevent heq.symm)) hfn
  | @leave f rest n ntr hf =>
    refine ⟨fun tag r hrec hb hnot => ?_, fun fn msg hmem hfn => hI.replies fn msg (List.mem_cons_of_mem _ hmem) hfn⟩
    refine hI.records tag r hrec hb (fun hmem => hnot ((List.mem_cons.1 hmem).resolve_left ?_))
    rintro rfl
    cases hf

/-- A request of the lookup was sent after some point, or before and the lookup was underway then. -/
theorem askedWith_append {req : Message UInt32} {new old : NodeTrace} (h : req ∈ askedWith t (new ++ old)) :
    (∃ e ∈ new, req ∈ e.1.asksWith t e.2) ∨ req ∈ askedWith t old := by
  induction new with
  | nil => exact Or.inr h
  | cons e new ih =>
    rw [List.cons_append, askedWith, sinceErase] at h
    split at h
    · cases h
    · rcases List.mem_append.1 h with h | h
      · rcases ih h with ⟨e', he', hreq⟩ | h
        · exact Or.inl ⟨e', List.mem_cons_of_mem _ he', hreq⟩
        · exact Or.inr h
      · exact Or.inl ⟨e, List.mem_cons_self, h⟩

/-- A call that sends a request of the lookup asks a contact. -/
theorem of_mem_asksWith {req : Message UInt32} (h : req ∈ c.asksWith t ch) : ∃ msg cb mr time, c = .base (.send msg cb mr time) ∧
    msg.tag = 0 ∧ c.asks t ≠ [] ∧ req = msg.tagged ch.tag := by
  unfold Call.asksWith at h
  split at h
  · split at h
    · rename_i hc
      exact ⟨_, _, _, _, rfl, hc.1, hc.2, List.mem_singleton.1 h⟩
    · cases h
  · cases h

/-- A lookup that sent a request asked a contact. -/
theorem queried_of_asked {req : Message UInt32} (h : req ∈ askedWith t ntr) : queriedFor t ntr ≠ [] := by
  induction ntr with
  | nil => cases h
  | cons e ntr ih =>
    rw [askedWith, sinceErase] at h
    rw [queriedFor, sinceErase]
    split at h
    · cases h
    · rename_i he
      rw [if_neg he]
      intro hnil
      obtain ⟨hqueried, hasks⟩ := List.append_eq_nil_iff.1 hnil
      rcases List.mem_append.1 h with h | h
      · exact ih h hqueried
      · obtain ⟨_, _, _, _, -, -, hne, -⟩ := of_mem_asksWith h
        exact hne hasks

/-- A lookup that asked somebody was started. -/
theorem started_of_asked {lossy : Prop} {stack : List Call} (h : LookupState Γ lossy t n stack ntr) {req : Message UInt32}
    (hreq : req ∈ askedWith t ntr) : startedBy t ntr ≠ [] := by
  rcases h with ⟨-, -, hview⟩ | ⟨nf, φ, -, -, hp⟩
  · exact absurd (List.append_eq_nil_iff.1 (congrArg LookupView.asked hview)).1 (queried_of_asked hreq)
  · intro hnil
    have hstarted := hp.started
    rw [show (lookupView Γ t stack ntr).started = startedBy t ntr from rfl, hnil] at hstarted
    cases hstarted

/-! ## The kind of a request -/

theorem readFindNodes_tagged (msg : Message UInt32) (drawn : Tag) (ch : Choice) :
    readFindNodes Γ ch (msg.tagged drawn) = readFindNodes Γ ch msg := by
  unfold Message.tagged
  split <;> rfl

/-- The requests of a lookup are of the kind that it was started as. -/
structure OfKind (Γ : Ctx) (t : KademliaKey) (m : NodeConfig) : Prop where
  sent : ∀ req ∈ askedWith t m.trace, ∀ ch, (startedBy t m.trace).head? = some (readFindNodes Γ ch req).findValue
  sends : ∀ msg cb mr time, .base (.send msg cb mr time) ∈ m.stack → (Call.base (.send msg cb mr time)).asks t ≠ [] →
    ∀ ch, (startedBy t m.trace).head? = some (readFindNodes Γ ch msg).findValue

/-- A request that a lookup makes is of its kind. -/
theorem kind_of_makes (hΓ : Γ.Decodes) (h : LookupState Γ False t n (c :: rest) ntr) {msg : Message UInt32} {cb : CallbackSet SendFn}
    {mr : UInt32} {time : UInt64} (hm : Makes Γ ch n c (.base (.send msg cb mr time)))
    (hasks : (Call.base (.send msg cb mr time)).asks t ≠ []) (ch' : Choice) :
    (startedBy t ntr).head? = some (readFindNodes Γ ch' msg).findValue ∧ c.starts t = [] ∧ c ≠ .eraseFinder t := by
  cases hm with
  | @stepSend t' l uncontacted nf top hf hs =>
    have ht : t' = t := by
      by_contra hne
      exact hasks (by simp [Call.asks, CallbackSet.of, SendFn.asks, hne])
    subst ht
    have hcall : (LookupAux.tracker t').ofCall (.findNodesStep t' l) = [.step l] := if_pos rfl
    have hone : (LookupAux.tracker t').pending n (.findNodesStep t' l :: rest) = .step l :: (LookupAux.tracker t').pending n rest := by
      rw [Tracker.pending_cons rfl, hcall]
      rfl
    obtain ⟨nf', hf', -, hp⟩ := LookupAux.lookupState_front h hone
    cases hf.symm.trans hf'
    refine ⟨hp.started.trans ?_, rfl, by simp⟩
    have hread : (readFindNodes Γ ch' (n.findNodesRequest Γ t' (nf.learn l).findValue top)).findValue = (nf.learn l).findValue :=
      congrArg FindNodesMessage.findValue (hΓ.findNodes _ _)
    rw [hread, hp.learn.2.2.2.2.2.2]
  | _ => exact absurd rfl hasks

theorem startedBy_cons (hc : c ≠ .eraseFinder t) : startedBy t ((c, ch) :: ntr) = startedBy t ntr ++ c.starts t := if_neg hc

/-- In every run in which no tag is drawn twice, the requests of a lookup are of its kind. -/
theorem ofKind_of_run (hΓ : Γ.Decodes)
    (h : Run (nodeProgram Γ) (fun m l => freshTags m l = true) (startNode config key offset) m) (t : KademliaKey) : OfKind Γ t m := by
  refine h.invariant (I := OfKind Γ t) ⟨fun req hreq => absurd hreq List.not_mem_nil,
    fun msg cb mr time hmem => absurd hmem List.not_mem_nil⟩ ?_
  intro m l m' hr hI hl hs
  -- what comes in from outside is sent without callbacks
  have hnew : ∀ {msg cb mr time}, (Call.base (.send msg cb mr time)).isEvent = true →
      (Call.base (.send msg cb mr time)).asks t = [] := by
    intro msg cb mr time hx
    obtain rfl := KademliaNode.eq_empty_of_isEmpty hx
    rfl
  cases hs with
  | @run ch c rest n ntr n' cs hw he =>
    have hlookup : LookupState Γ False t n (c :: rest) ntr := lookupState_of_run False (fun _ _ hl => Or.inr hl) hr t
    by_cases hc : c = .eraseFinder t
    · subst hc
      have he : exec Γ ch (.eraseFinder t) n = some (n', cs) := he
      cases he
      refine ⟨fun req hreq => ?_, fun msg cb mr time hmem hasks => ?_⟩
      · rw [show askedWith t ((Call.eraseFinder t, ch) :: ntr) = [] from if_pos rfl] at hreq
        cases hreq
      · -- a lookup that is closing asks nobody
        have hone : (LookupAux.tracker t).pending n (.eraseFinder t :: rest) =
            .closing :: (LookupAux.tracker t).pending n rest := by
          rw [Tracker.pending_cons rfl]
          exact congrArg (· ++ _) (if_pos rfl)
        obtain ⟨-, -, hnil, -⟩ := LookupAux.lookupState_front hlookup hone
        exact absurd (List.flatMap_eq_nil_iff.1 (LookupAux.asks_eq_nil_of_pending hnil) _ hmem) hasks
    · have hhead : ∀ {b}, (startedBy t ntr).head? = some b → (startedBy t ((c, ch) :: ntr)).head? = some b := by
        intro b hb
        rw [startedBy_cons hc, List.head?_append, hb]
        rfl
      refine ⟨fun req hreq ch' => ?_, fun msg cb mr time hmem hasks ch' => ?_⟩
      · rw [askedWith_cons hc] at hreq
        rcases List.mem_append.1 hreq with hreq | hreq
        · exact hhead (hI.sent req hreq ch')
        · obtain ⟨msg, cb, mr, time, rfl, -, hasks, rfl⟩ := of_mem_asksWith hreq
          rw [readFindNodes_tagged]
          exact hhead (hI.sends msg cb mr time List.mem_cons_self hasks ch')
      · rcases List.mem_append.1 hmem with hmem | hmem
        · exact hhead (kind_of_makes hΓ hlookup (exec_makes he _ hmem) hasks ch').1
        · exact hhead (hI.sends msg cb mr time (List.mem_cons_of_mem _ hmem) hasks ch')
  | @event c n ntr hc =>
    refine ⟨hI.sent, fun msg cb mr time hmem hasks => ?_⟩
    obtain rfl : _ = c := List.mem_singleton.1 hmem
    exact absurd (hnew hc) hasks
  | @reentry c f rest n ntr hf hc =>
    refine ⟨hI.sent, fun msg cb mr time hmem hasks => ?_⟩
    rcases List.mem_cons.1 hmem with rfl | hmem
    · exact absurd (hnew (isEvent_of_enters (Γ := Γ) (Or.inr hc))) hasks
    · exact hI.sends msg cb mr time hmem hasks
  | @leave f rest n ntr hf => exact ⟨hI.sent, fun msg cb mr time hmem => hI.sends msg cb mr time (List.mem_cons_of_mem _ hmem)⟩

end AskedAux

namespace AskedAux

open NetworkCall

variable {N : Nat} {Γ : Ctx} {config : Fin N → Config} {key : Fin N → KademliaKey} {offset : Fin N → Time} {limit : UInt32}
  {ok : NetworkConfig N → NetworkLabel N → Prop} {i : Fin N} {t : KademliaKey} {m m₁ : NetworkConfig N} {q : SentRequest N}

/-! ## The network -/

/-- The requests that a node made after some point are ahead of those made before. -/
theorem requests_append (new old : NetworkTrace N) : ∃ made, requests (new ++ old) = made ++ requests old ∧
    ∀ i msg cb mr time ch, (.app i (.base (.send msg cb mr time)), ch) ∈ new → msg.tag = 0 →
      (∀ e ∈ new ++ old, e.1 ≠ .app i (.base .die)) → ∃ q ∈ made, q.message = msg.tagged ch.tag := by
  induction new with
  | nil => exact ⟨[], rfl, fun i msg cb mr time ch hmem => absurd hmem List.not_mem_nil⟩
  | cons e new ih =>
    obtain ⟨made, heq, hmade⟩ := ih
    have htail : ∀ {i : Fin N}, (∀ e' ∈ e :: new ++ old, e'.1 ≠ .app i (.base .die)) →
        ∀ e' ∈ new ++ old, e'.1 ≠ .app i (.base .die) := fun h e' he' => h e' (List.mem_cons_of_mem _ he')
    rcases requests_cons e (new ++ old) with hsame | ⟨i, msg, cb, mr, time, ch, rfl, ht, -, hone⟩
    · refine ⟨made, hsame.trans heq, fun i msg cb mr time ch hmem ht hlive => ?_⟩
      rcases List.mem_cons.1 hmem with rfl | hmem
      · rw [requests_send ht (htail hlive)] at hsame
        exact absurd (congrArg List.length hsame) (by simp)
      · exact hmade i msg cb mr time ch hmem ht (htail hlive)
    · refine ⟨⟨i, msg.tagged ch.tag, cb, mr⟩ :: made, hone.trans (congrArg _ heq), fun i' msg' cb' mr' time' ch' hmem ht' hlive => ?_⟩
      rcases List.mem_cons.1 hmem with hfirst | hmem
      · cases hfirst
        exact ⟨_, List.mem_cons_self, rfl⟩
      · obtain ⟨q, hq, hmsg⟩ := hmade i' msg' cb' mr' time' ch' hmem ht' (htail hlive)
        exact ⟨q, List.mem_cons_of_mem _ hq, hmsg⟩

/-- What a live node sent for a lookup after some point is a request that was made then. -/
theorem made_of_asked {e : Call × Choice} {req : Message UInt32} {new old : NetworkTrace N} (he : e ∈ new.flatMap (runsIn i))
    (hreq : req ∈ e.1.asksWith t e.2) (hlive : ∀ e ∈ new ++ old, e.1 ≠ .app i (.base .die)) :
    ∃ made, requests (new ++ old) = made ++ requests old ∧ ∃ q ∈ made, q.message = req := by
  obtain ⟨c, ch⟩ := e
  obtain ⟨msg, cb, mr, time, hcall, ht, -, rfl⟩ := of_mem_asksWith hreq
  obtain rfl : c = _ := hcall
  obtain ⟨ch', hx, rfl⟩ := mem_of_runsIn he (by simp) (by simp)
  obtain ⟨made, heq, hmade⟩ := requests_append new old
  exact ⟨made, heq, hmade i msg cb mr time ch' hx ht hlive⟩

/-- A reply that is given to a lookup is one to a request that the lookup sent. -/
theorem asked_of_reply (hΓ : Γ.Decodes) (hok : ∀ m l, ok m l → freshNetworkTags m l = true)
    (h : Run (networkProgram Γ N) ok (startNetwork config key offset limit) m) (hlive : (m.state.applications i).dead = false)
    (hq : q ∈ requests m.trace) {fn : SendFn} {msg : Message UInt32} (hmem : .app i (.base (.callback true fn msg)) ∈ m.stack)
    (hfn : fn.lookupTarget = some t) (htag : msg.tag = q.message.tag) : q.message ∈ askedWith t (nodeConfig i m).trace := by
  have hown := (own_of_run (run_node_freshTags hok h i) t).replies fn msg (mem_stack_nodeConfig hmem) hfn
  obtain ⟨req, hreq, hreqtag⟩ := List.mem_map.1 hown
  have hreq' : req ∈ askedWith t ((nodeConfig i m).trace ++ []) := by rwa [List.append_nil]
  obtain ⟨e, he, hsent⟩ := (askedWith_append hreq').resolve_right List.not_mem_nil
  have hnone : ∀ e ∈ m.trace ++ [], e.1 ≠ .app i (.base .die) := by simpa using (live_iff h i).1 hlive
  obtain ⟨made, heq, q', hq', rfl⟩ := made_of_asked he hsent hnone
  have hq'' : q' ∈ requests m.trace := by
    rw [List.append_nil] at heq
    rw [heq]
    exact List.mem_append_left _ hq'
  obtain rfl := (trafficState_of_run hΓ hok h).eq_of_tag hq'' hq (hreqtag.trans htag)
  exact hreq

/-- Where a request of a lookup that is underway was made before some point, the lookup was underway then. -/
theorem underway_of_asked (hΓ : Γ.Decodes) (hok : ∀ m l, ok m l → freshNetworkTags m l = true)
    (h : Run (networkProgram Γ N) ok (startNetwork config key offset limit) m) (hlive : (m.state.applications i).dead = false)
    (h₁ : Run (networkProgram Γ N) ok (startNetwork config key offset limit) m₁) (h₂ : Run (networkProgram Γ N) ok m₁ m)
    (hq : q ∈ requests m₁.trace) (hasked : q.message ∈ askedWith t (nodeConfig i m).trace) :
    startedBy t (nodeConfig i m₁).trace ≠ [] := by
  obtain ⟨new, hnew⟩ := h₂.trace_suffix
  have htrace : (nodeConfig i m).trace = new.flatMap (runsIn i) ++ (nodeConfig i m₁).trace := by
    rw [nodeConfig, ← hnew, List.flatMap_append]
    rfl
  rw [htrace] at hasked
  refine started_of_asked (lookupState_of_run True (fun _ _ _ => Or.inl trivial) (run_node h₁ i) t)
    ((askedWith_append hasked).resolve_left ?_)
  -- the tag of the request is not drawn again
  rintro ⟨e, he, hsent⟩
  have hnone : ∀ e ∈ new ++ m₁.trace, e.1 ≠ .app i (.base .die) := hnew ▸ (live_iff h i).1 hlive
  obtain ⟨made, heq, q', hq', hmsg⟩ := made_of_asked he hsent hnone
  have hdistinct := (trafficState_of_run hΓ hok h).distinct
  rw [← hnew, heq, List.map_append] at hdistinct
  refine (List.nodup_append.1 hdistinct).2.2 _ (List.mem_map_of_mem hq') _ (List.mem_map_of_mem hq) ?_
  rw [hmsg]

end AskedAux

end Dhtsim
