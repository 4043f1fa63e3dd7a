import Dhtsim.Lemmas.Requests

/-!
# Where the messages of a node come from

A node makes two kinds of messages: the requests of `ping`, `findNodesStep` and `store`, whose tag is still to be drawn, and the
answers to the messages it handles, which keep the tag. Every other message that a node or a call has after a step was there
before, or came in.
-/

namespace Dhtsim

open CallMachine

/-- The message that a call sends, passes on or handles. -/
def Call.carries : Call → Option (Message UInt32)
  | .base (.send m _ _ _) => some m
  | .base (.receive m) => some m
  | .base (.handleMessage m) => some m
  | .base (.callback true _ m) => some m
  | .base (.recv m) => some m
  | .dispatch m => some m
  | .handleFindNodes m _ => some m
  | .handleStore m _ => some m
  | _ => none

namespace BaseApplication

variable {A F : Type}

/-- A message that is sent has a place at the end of the outbound queue, if the queue is not full. -/
theorem queueOut_outqueue (app : BaseApplication A F) (m : Message A) :
    (app.queueOut m).outqueue = app.outqueue ++ if app.outqueue.length < outqueueLimit then [m] else [] := by
  unfold queueOut
  split <;> simp

theorem queueIn_inqueue (app : BaseApplication A F) (m : Message A) :
    (app.queueIn m).inqueue = app.inqueue ++ if app.inqueue.length < inqueueLimit then [m] else [] := by
  unfold queueIn
  split <;> simp

theorem send_outqueue {app : BaseApplication A F} (hd : app.dead = false) (drawn : Tag) (m : Message A) (cb : CallbackSet F)
    (mr : UInt32) (t : UInt64) : (app.send drawn m cb mr t).1.outqueue =
      app.outqueue ++ if app.outqueue.length < outqueueLimit then [m.tagged drawn] else [] := by
  rw [send_of_live hd, queueOut_outqueue, register_eq]

/-- What a call puts into the outbound queue. -/
def putsOut (drawn : Tag) (c : BaseCall A F) (app : BaseApplication A F) : Option (Message A) :=
  match c with
  | .send m _ _ _ => if app.dead then none else some (m.tagged drawn)
  | .attemptRetry tag => if app.dead then none else (app.callbacks.find? tag).map (fun r => r.message.tagged drawn)
  | _ => none

/-- The outbound queue grows by what a call puts into it, unless it is full, and shrinks when the network takes a message. -/
theorem exec_outqueue (drawn : Tag) (c : BaseCall A F) (app : BaseApplication A F) :
    (c = .unqueueOut ∧ (exec drawn c app).1.outqueue = app.outqueue.tail) ∨
      (exec drawn c app).1.outqueue = app.outqueue ++
        if app.outqueue.length < outqueueLimit then (putsOut drawn c app).toList else [] := by
  cases c with
  | tick time => right; simp only [exec, putsOut]; split <;> simp
  | drain => right; simp only [exec, putsOut]; split <;> simp
  | overdue after => right; simp only [exec, putsOut]; (repeat' split) <;> simp
  | attemptRetry tag =>
    right
    simp only [exec, attemptRetry, putsOut]
    cases hd : app.dead with
    | true => split <;> simp [send_of_dead hd]
    | false =>
      split
      · rename_i hf
        simp [hf]
      · rename_i r hf
        simp [send_outqueue hd, hf]
  | send m cb mr t =>
    right
    simp only [exec, putsOut]
    cases hd : app.dead with
    | true => simp [send_of_dead hd]
    | false => simp [send_outqueue hd]
  | receive m => right; simp only [exec, putsOut]; split <;> simp
  | recv m => right; simp only [exec, putsOut]; rw [queueIn_eq]; simp
  | unqueueOut => exact Or.inl ⟨rfl, rfl⟩
  | _ => right; simp [exec, putsOut]

/-- The inbound queue grows where a message comes in, unless it is full, and shrinks in the loop of `tick`. -/
theorem exec_inqueue (drawn : Tag) (c : BaseCall A F) (app : BaseApplication A F) :
    (exec drawn c app).1.inqueue = app.inqueue ∨ (c = .drain ∧ (exec drawn c app).1.inqueue = app.inqueue.tail) ∨
      ∃ m, c = .recv m ∧ (exec drawn c app).1.inqueue =
        app.inqueue ++ if app.inqueue.length < inqueueLimit then [m] else [] := by
  cases c with
  | tick time => left; simp only [exec]; split <;> rfl
  | drain =>
    refine Or.inr (Or.inl ⟨rfl, ?_⟩)
    simp only [exec]
    split
    · rename_i h
      rw [h]
      rfl
    · rename_i h
      rw [h]
      rfl
  | overdue after => left; simp only [exec]; (repeat' split) <;> rfl
  | attemptRetry tag => left; simp only [exec]; rw [attemptRetry_eq]
  | send m cb mr t => left; simp only [exec]; rw [send_eq]
  | receive m => left; simp only [exec]; split <;> rfl
  | recv m => exact Or.inr (Or.inr ⟨m, rfl, queueIn_inqueue app m⟩)
  | _ => exact Or.inl rfl

end BaseApplication

namespace KademliaNode

variable {Γ : Ctx} {ch : Choice} {c : Call} {n : KademliaNode} {p : KademliaNode × List Call}

/-- A call of the base changes the base as it does in any application. -/
theorem exec_base {b : BaseCall UInt32 SendFn} (h : exec Γ ch (.base b) n = some p) :
    p.1.toBaseApplication = (BaseApplication.exec ch.tag b n.toBaseApplication).1 := by
  cases h
  cases b with
  | callback ok fn m =>
    cases fn with
    | findSuccess t top =>
      change (n.findSuccess Γ ch t top m).1.toBaseApplication = n.toBaseApplication
      rw [findSuccess_eq]
    | findFailure t top =>
      change (n.findFailure t top).1.toBaseApplication = n.toBaseApplication
      rw [findFailure_eq]
      rfl
    | _ => rfl
  | _ => rfl

/-- Other calls leave the base alone. -/
theorem exec_base_of_ne (h : exec Γ ch c n = some p) (hc : ∀ b, c ≠ .base b) :
    p.1.toBaseApplication = n.toBaseApplication := by
  obtain ⟨n', cs⟩ := p
  have hch : Changes n c n' := exec_changes h
  cases hch with
  | base drawn h1 h2 => exact absurd rfl (hc _)
  | _ => rfl

/-- What a call of a node puts into the outbound queue. -/
def putsOut (ch : Choice) (c : Call) (n : KademliaNode) : Option (Message UInt32) :=
  match c with
  | .base c => BaseApplication.putsOut ch.tag c n.toBaseApplication
  | _ => none

theorem exec_outqueue (h : exec Γ ch c n = some p) :
    (c = .base .unqueueOut ∧ p.1.outqueue = n.outqueue.tail) ∨
      p.1.outqueue = n.outqueue ++ if n.outqueue.length < outqueueLimit then (n.putsOut ch c).toList else [] := by
  by_cases hb : ∃ b, c = .base b
  · obtain ⟨b, rfl⟩ := hb
    rw [exec_base h]
    rcases BaseApplication.exec_outqueue ch.tag b n.toBaseApplication with ⟨rfl, he⟩ | he
    · exact Or.inl ⟨rfl, he⟩
    · exact Or.inr he
  · right
    rw [exec_base_of_ne h (fun b hc => hb ⟨b, hc⟩)]
    have hnone : n.putsOut ch c = none := by
      cases c with
      | base b => exact absurd ⟨b, rfl⟩ hb
      | _ => rfl
    simp [hnone]

theorem exec_inqueue (h : exec Γ ch c n = some p) :
    p.1.inqueue = n.inqueue ∨ (c = .base .drain ∧ p.1.inqueue = n.inqueue.tail) ∨
      ∃ m, c = .base (.recv m) ∧ p.1.inqueue = n.inqueue ++ if n.inqueue.length < inqueueLimit then [m] else [] := by
  by_cases hb : ∃ b, c = .base b
  · obtain ⟨b, rfl⟩ := hb
    rw [exec_base h]
    rcases BaseApplication.exec_inqueue ch.tag b n.toBaseApplication with he | ⟨rfl, he⟩ | ⟨m, rfl, he⟩
    · exact Or.inl he
    · exact Or.inr (Or.inl ⟨rfl, he⟩)
    · exact Or.inr (Or.inr ⟨m, rfl, he⟩)
  · exact Or.inl (congrArg BaseApplication.inqueue (exec_base_of_ne h (fun b hc => hb ⟨b, hc⟩)))

/-- The outbound queue keeps within its limit. -/
theorem exec_outqueue_le (h : exec Γ ch c n = some p) (hn : n.outqueue.length ≤ outqueueLimit) :
    p.1.outqueue.length ≤ outqueueLimit := by
  rcases exec_outqueue h with ⟨-, he⟩ | he
  · rw [he, List.length_tail]
    omega
  · rw [he, List.length_append]
    have hone : (n.putsOut ch c).toList.length ≤ 1 := by
      cases n.putsOut ch c <;> simp
    split_ifs with hlt
    · omega
    · simpa using hn

theorem outqueue_le_of_run {ok : NodeConfig → NodeLabel → Prop} {config : Config} {key : KademliaKey} {offset : Time}
    {m : NodeConfig} (h : Run (nodeProgram Γ) ok (startNode config key offset) m) :
    m.state.outqueue.length ≤ outqueueLimit := by
  refine h.invariant (I := fun m => m.state.outqueue.length ≤ outqueueLimit) (Nat.zero_le _) ?_
  rintro m l m' - hI - hs
  cases hs with
  | run hw he => exact exec_outqueue_le he hI
  | event | reentry | leave => exact hI

/-- The messages that a node has: those in its queues, and those that wait for a reply. -/
def messages (n : KademliaNode) : List (Message UInt32) :=
  n.inqueue ++ n.outqueue ++ n.callbacks.entries.map (fun e => e.2.message)

theorem mem_messages {msg : Message UInt32} : msg ∈ n.messages ↔
    msg ∈ n.inqueue ∨ msg ∈ n.outqueue ∨ ∃ tag r, (tag, r) ∈ n.callbacks.entries ∧ r.message = msg := by
  simp only [messages, List.mem_append, List.mem_map, Prod.exists, or_assoc]

/-- The request that a node makes, its tag still to be drawn. -/
inductive Requested (Γ : Ctx) (key : KademliaKey) : Message UInt32 → Prop where
  | ping {msg : Message UInt32} (htype : msg.type = MessageType.ping.code)
      (hdata : msg.data = Γ.ping.write (PingMessage.ping key)) : Requested Γ key msg
  | find {msg : Message UInt32} (target : KademliaKey) (findValue : Bool) (htype : msg.type = MessageType.findNodes.code)
      (hdata : msg.data = Γ.findNodes.write ⟨key, true, findValue, target, 0, [], false, []⟩) : Requested Γ key msg
  | store {msg : Message UInt32} (value : List UInt8) (htype : msg.type = MessageType.store.code)
      (hdata : msg.data = Γ.store.write ⟨true, key, value⟩) : Requested Γ key msg

/-- The call handles a message and answers it with another. -/
inductive Answers (Γ : Ctx) (n : KademliaNode) : Call → Message UInt32 → Message UInt32 → Prop where
  | pong {m : Message UInt32} (ht : MessageType.ofCode m.type = some .ping) (hp : (readPing Γ m).pingOrPong = true) :
      Answers Γ n (.dispatch m) m (n.pongTo Γ m)
  | found {m : Message UInt32} {fm : FindNodesMessage} (hr : fm.request = true) :
      Answers Γ n (.handleFindNodes m fm) m (n.findNodesReplyTo Γ m fm)
  | stored {m : Message UInt32} {sm : StoreMessage} : Answers Γ n (.handleStore m sm) m (n.storeReplyTo Γ m)

/-- What is put into the outbound queue is a message that is sent, or that of a record that is sent again. -/
theorem putsOut_cases {msg : Message UInt32} (h : n.putsOut ch c = some msg) :
    (∃ m cb mr t, c = .base (.send m cb mr t) ∧ n.dead = false ∧ msg = m.tagged ch.tag) ∨
      ∃ tag r, c = .base (.attemptRetry tag) ∧ n.dead = false ∧ n.callbacks.find? tag = some r ∧
        msg = r.message.tagged ch.tag := by
  unfold putsOut BaseApplication.putsOut at h
  split at h
  · split at h
    · rename_i m cb mr t
      simp only [Option.ite_none_left_eq_some, Bool.not_eq_true, Option.some.injEq] at h
      exact Or.inl ⟨m, cb, mr, t, rfl, h.1, h.2.symm⟩
    · rename_i tag
      simp only [Option.ite_none_left_eq_some, Bool.not_eq_true, Option.map_eq_some_iff] at h
      obtain ⟨hd, r, hf, rfl⟩ := h
      exact Or.inr ⟨tag, r, rfl, hd, hf, rfl⟩
    · cases h
  · cases h

theorem tagged_of_ne {m : Message UInt32} (h : m.tag ≠ 0) (drawn : Tag) : m.tagged drawn = m := if_neg h

/-- A message that a node has after a call it had before, or it came in, or was sent. -/
theorem exec_messages (h : exec Γ ch c n = some p) (htags : ∀ tag r, (tag, r) ∈ n.callbacks.entries → r.message.tag ≠ 0)
    {msg : Message UInt32} (hmsg : msg ∈ p.1.messages) :
    msg ∈ n.messages ∨ c = .base (.recv msg) ∨ ∃ m cb mr t, c = .base (.send m cb mr t) ∧ n.dead = false ∧
      msg = m.tagged ch.tag := by
  rcases mem_messages.1 hmsg with hin | hout | ⟨tag, r', hr, rfl⟩
  · have hold : msg ∈ n.inqueue → msg ∈ n.messages := fun h => mem_messages.2 (Or.inl h)
    rcases exec_inqueue h with he | ⟨-, he⟩ | ⟨m, rfl, he⟩
    · exact Or.inl (hold (he ▸ hin))
    · exact Or.inl (hold (List.mem_of_mem_tail (he ▸ hin)))
    · rw [he, List.mem_append] at hin
      rcases hin with hin | hin
      · exact Or.inl (hold hin)
      · split at hin
        · rw [List.mem_singleton.1 hin]
          exact Or.inr (Or.inl rfl)
        · cases hin
  · have hold : msg ∈ n.outqueue → msg ∈ n.messages := fun h => mem_messages.2 (Or.inr (Or.inl h))
    rcases exec_outqueue h with ⟨-, he⟩ | he
    · exact Or.inl (hold (List.mem_of_mem_tail (he ▸ hout)))
    · rw [he, List.mem_append] at hout
      rcases hout with hout | hout
      · exact Or.inl (hold hout)
      · split at hout
        · rcases putsOut_cases (Option.mem_toList.1 hout) with hsend | ⟨tag, r, -, -, hf, rfl⟩
          · exact Or.inr (Or.inr hsend)
          · have hr := SortedMap.find?_eq_some_iff.1 hf
            rw [tagged_of_ne (htags tag r hr)]
            exact Or.inl (mem_messages.2 (Or.inr (Or.inr ⟨tag, r, hr, rfl⟩)))
        · cases hout
  · rcases exec_record h hr with ⟨r, hr, hmsg, -⟩ | ⟨m, mr, t, rfl, hd, -, -, hmsg⟩
    · exact Or.inl (mem_messages.2 (Or.inr (Or.inr ⟨tag, r, hr, hmsg.symm⟩)))
    · exact Or.inr (Or.inr ⟨m, _, mr, t, rfl, hd, hmsg⟩)

/-- The message that a call carries was carried by the call that made it, or came from the inbound queue, or is a request or
an answer that was made. -/
theorem makes_carries {x : Call} (h : Makes Γ ch n c x) {msg : Message UInt32} (hx : x.carries = some msg) :
    (c.carries = some msg ∧ ∀ cb mr t, c ≠ .base (.send msg cb mr t)) ∨ (c = .base .drain ∧ msg ∈ n.inqueue) ∨
      (∃ cb mr t, x = .base (.send msg cb mr t) ∧ msg.tag = 0 ∧ msg.originator = n.address ∧ Requested Γ n.key msg) ∨
      ∃ m, x = .base (.send msg .empty 16 0) ∧ Answers Γ n c m msg := by
  cases h with
  | drainMessage hq => cases hx; exact Or.inr (Or.inl ⟨rfl, by rw [hq]; exact List.mem_cons_self⟩)
  | resolve hf hfn => cases hx; exact Or.inl ⟨rfl, by simp⟩
  | receive | dispatch | findNodes | storeRequested => cases hx; exact Or.inl ⟨rfl, by simp⟩
  | pong ht hp => cases hx; exact Or.inr (Or.inr (Or.inr ⟨_, rfl, .pong ht hp⟩))
  | findNodesReply hr => cases hx; exact Or.inr (Or.inr (Or.inr ⟨_, rfl, .found hr⟩))
  | storeReply => cases hx; exact Or.inr (Or.inr (Or.inr ⟨_, rfl, .stored⟩))
  | pingSend hf => cases hx; exact Or.inr (Or.inr (Or.inl ⟨_, _, _, rfl, rfl, rfl, .ping rfl rfl⟩))
  | stepSend hf hs => cases hx; exact Or.inr (Or.inr (Or.inl ⟨_, _, _, rfl, rfl, rfl, .find _ _ rfl rfl⟩))
  | storeSend => cases hx; exact Or.inr (Or.inr (Or.inl ⟨_, _, _, rfl, rfl, rfl, .store _ rfl rfl⟩))
  | _ => cases hx

end KademliaNode

end Dhtsim
