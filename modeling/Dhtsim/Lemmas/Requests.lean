import Dhtsim.Lemmas.Held

/-!
# Requests

A node sends a message with callbacks in two places, `ping` and `findNodesStep`; every other message goes out without. So a
record of a node is that of a ping or of a `FIND_NODES` request, with the two functions that were made for it.
-/

namespace Dhtsim

open CallMachine

/-- The requests that a node of a given key sends, each with its callbacks. -/
inductive IsRequest (Γ : Ctx) (key : KademliaKey) : Message UInt32 → CallbackSet SendFn → Prop where
  | ping {msg : Message UInt32} (cb : CallbackSet PingFn) (htype : msg.type = MessageType.ping.code)
      (hdata : msg.data = Γ.ping.write (PingMessage.ping key)) :
      IsRequest Γ key msg (.of (.pingSuccess msg.destination cb) (.pingFailure msg.destination cb))
  | find {msg : Message UInt32} (target : KademliaKey) (top : BucketEntry) (findValue : Bool)
      (htype : msg.type = MessageType.findNodes.code) (hdest : msg.destination = top.address)
      (hdata : msg.data = Γ.findNodes.write ⟨key, true, findValue, target, 0, [], false, []⟩) :
      IsRequest Γ key msg (.of (.findSuccess target top) (.findFailure target top))

variable {Γ : Ctx} {key : KademliaKey}

theorem IsRequest.tagged {msg : Message UInt32} {cb : CallbackSet SendFn} (h : IsRequest Γ key msg cb) (drawn : Tag) :
    IsRequest Γ key (msg.tagged drawn) cb := by
  unfold Message.tagged
  split
  · cases h with
    | ping cb htype hdata => exact .ping cb htype hdata
    | find t top fv htype hdest hdata => exact .find t top fv htype hdest hdata
  · exact h

/-- What a call may carry: a message is sent as a request, its tag still to be drawn, or without callbacks, and a function that
runs is one of a request, which failed with the message that runs it. -/
def Call.FromRequests (Γ : Ctx) (key : KademliaKey) : Call → Prop
  | .base (.send msg cb _ _) => cb = .empty ∨ (IsRequest Γ key msg cb ∧ msg.tag = 0)
  | .base (.callback ok fn msg) => ∃ req cb, IsRequest Γ key req cb ∧ fn ∈ cb.fns ok ∧ (ok = false → msg = req)
  | _ => True

namespace KademliaNode

/-- Every record of the node is that of a request. -/
def RecordsRequests (Γ : Ctx) (n : KademliaNode) : Prop :=
  ∀ tag r, (tag, r) ∈ n.callbacks.entries → IsRequest Γ n.key r.message r.callback

variable {ch : Choice} {c : Call} {n : KademliaNode} {p : KademliaNode × List Call}

theorem eq_empty_of_isEmpty {F : Type} {cb : CallbackSet F} (h : cb.isEmpty = true) : cb = .empty := by
  obtain ⟨s, f⟩ := cb
  simp only [CallbackSet.isEmpty, Bool.and_eq_true, List.isEmpty_iff] at h
  rw [CallbackSet.empty, h.1, h.2]

/-- A call keeps the records those of requests: the only records made are of messages sent as requests. -/
theorem exec_recordsRequests (h : exec Γ ch c n = some p) (hn : n.RecordsRequests Γ) (hc : c.FromRequests Γ n.key) :
    p.1.RecordsRequests Γ := by
  have hkey : p.1.key = n.key := congrArg (·.1) (exec_identity h)
  have hold : ∀ tag r, (tag, r) ∈ n.callbacks.entries → IsRequest Γ p.1.key r.message r.callback := hkey ▸ hn
  intro tag r hr
  rcases exec_callbacks h with he | ⟨m, cb, mr, t, rfl, -, hcb, he⟩ | ⟨tag', -, he⟩ | ⟨tag', r', -, hf, he⟩
  · exact hold tag r (he ▸ hr)
  · rw [he, SortedMap.mem_entries_insert] at hr
    rcases hr with hr | ⟨hr, -⟩
    · cases hr
      rcases hc with rfl | ⟨hreq, -⟩
      · cases hcb
      · exact hkey ▸ hreq.tagged ch.tag
    · exact hold tag r hr
  · rw [he, SortedMap.mem_entries_erase] at hr
    exact hold tag r hr.1
  · rw [he, SortedMap.mem_entries_insert] at hr
    rcases hr with hr | ⟨hr, -⟩
    · cases hr
      exact hold tag r' (SortedMap.find?_eq_some_iff.1 hf)
    · exact hold tag r hr

/-- The calls that a call makes are of the same kind. -/
theorem makes_fromRequests {x : Call} (h : Makes Γ ch n c x) (hn : n.RecordsRequests Γ) (hc : c.FromRequests Γ n.key) :
    x.FromRequests Γ n.key := by
  cases h with
  | giveUp hnext hdue hr hfn => exact ⟨_, _, hn _ _ (SortedMap.mem_of_next hnext), hfn, fun _ => rfl⟩
  | resolve hf hfn => exact ⟨_, _, hn _ _ (SortedMap.find?_eq_some_iff.1 hf), hfn, fun h => by cases h⟩
  | sendDead hd hfn =>
    rcases hc with rfl | ⟨hreq, -⟩
    · exact absurd hfn List.not_mem_nil
    · exact ⟨_, _, hreq, hfn, fun _ => rfl⟩
  | pingSend hf => exact Or.inr ⟨.ping _ rfl rfl, rfl⟩
  | stepSend hf hs => exact Or.inr ⟨.find _ _ _ rfl rfl rfl, rfl⟩
  | pong | findNodesReply | storeReply | storeSend => exact Or.inl rfl
  | _ => trivial

theorem fromRequests_of_isEvent (hc : c.isEvent = true) : c.FromRequests Γ key := by
  cases c with
  | base b =>
    cases b with
    | send m cb mr t => exact Or.inl (eq_empty_of_isEmpty hc)
    | callback ok fn m => cases hc
    | _ => trivial
  | _ => trivial

/-- In every reachable configuration the records, and the functions that are about to run, are those of requests. -/
theorem fromRequests_of_run {config : Config} {offset : Time} {ok : NodeConfig → NodeLabel → Prop} {m : NodeConfig}
    (h : Run (nodeProgram Γ) ok (startNode config key offset) m) :
    (m.state.key = key ∧ m.state.RecordsRequests Γ) ∧ ∀ c ∈ m.stack, c.FromRequests Γ key := by
  refine h.invariant_stack (S := fun n => n.key = key ∧ n.RecordsRequests Γ) (C := fun _ c => c.FromRequests Γ key)
    ⟨⟨rfl, fun _ _ h => absurd h List.not_mem_nil⟩, fun c hc => absurd hc List.not_mem_nil⟩ ?_ ?_
  · rintro ch c rest n tr n' cs ⟨hkey, hn⟩ hc hrest - he
    have hc' : c.FromRequests Γ n.key := hkey ▸ hc
    refine ⟨⟨(congrArg (·.1) (exec_identity he)).trans hkey, exec_recordsRequests he hn hc'⟩, fun x hx => ?_, hrest⟩
    exact hkey ▸ makes_fromRequests (exec_makes he x hx) hn hc'
  · intro c n stack tr _ _ hc
    exact fromRequests_of_isEvent (isEvent_of_enters hc)

/-- A failure that runs is that of a ping or of a `FIND_NODES` request, to the address it was sent to. -/
theorem failure_cases {fn : SendFn} {msg : Message UInt32} (h : (Call.base (.callback false fn msg)).FromRequests Γ key) :
    (∃ cb, fn = .pingFailure msg.destination cb ∧ msg.type = MessageType.ping.code) ∨
      ∃ t top, fn = .findFailure t top ∧ msg.destination = top.address ∧ msg.type = MessageType.findNodes.code := by
  obtain ⟨req, cb, hreq, hfn, hmsg⟩ := h
  obtain rfl := hmsg rfl
  cases hreq with
  | ping cb htype hdata => exact Or.inl ⟨cb, List.mem_singleton.1 hfn, htype⟩
  | find t top fv htype hdest hdata => exact Or.inr ⟨t, top, List.mem_singleton.1 hfn, hdest, htype⟩

/-- A success that runs is that of a ping or of a `FIND_NODES` request. -/
theorem success_cases {fn : SendFn} {msg : Message UInt32} (h : (Call.base (.callback true fn msg)).FromRequests Γ key) :
    (∃ a cb, fn = .pingSuccess a cb) ∨ ∃ t top, fn = .findSuccess t top := by
  obtain ⟨req, cb, hreq, hfn, -⟩ := h
  cases hreq with
  | ping cb htype hdata => exact Or.inl ⟨_, cb, List.mem_singleton.1 hfn⟩
  | find t top fv htype hdest hdata => exact Or.inr ⟨t, top, List.mem_singleton.1 hfn⟩

/-- A function for success runs as one. -/
theorem success_of_findSuccess {ok : Bool} {t : KademliaKey} {top : BucketEntry} {msg : Message UInt32}
    (h : (Call.base (.callback ok (.findSuccess t top) msg)).FromRequests Γ key) : ok = true := by
  cases ok with
  | true => rfl
  | false => rcases failure_cases h with ⟨cb, heq, -⟩ | ⟨t', top', heq, -⟩ <;> cases heq

/-- In a live node a request fails when the loop over the records finds it overdue and without retries left. -/
theorem failure_of_live {ch : Choice} {c : Call} {n : KademliaNode} {fn : SendFn} {msg : Message UInt32}
    (h : Makes Γ ch n c (.base (.callback false fn msg))) (hlive : n.dead = false) :
    ∃ tag r, (tag, r) ∈ n.callbacks.entries ∧ msg = r.message ∧ r.nextSend ≤ n.epoch ∧ r.needsRetry = false := by
  cases h with
  | giveUp hnext hdue hr hfn => exact ⟨_, _, SortedMap.mem_of_next hnext, rfl, hdue, hr⟩
  | sendDead hd hfn => rw [hlive] at hd; cases hd

end KademliaNode

end Dhtsim
