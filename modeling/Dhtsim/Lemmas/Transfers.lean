import Dhtsim.Lib.Journal
import Dhtsim.Lemmas.Honesty
import Dhtsim.Lemmas.Turns

/-!
# The way of a message

A message waits in the outbound queue of its sender, is underway while the network passes it along, and waits in the inbound queue
of the node it is for. What the steps of a run do to the messages on their way is written down (`transfers`), and each of the three
places is a queue: it gives out what it got, in the order in which it got it.
-/

namespace Dhtsim

open CallMachine KademliaNode

/-- What happens to a message on its way. -/
inductive Transfer (N : Nat) where
  /-- A node puts it into its outbound queue. -/
  | queued (i : Fin N) (message : Message UInt32)
  /-- The network takes it from there. -/
  | unqueued (i : Fin N) (message : Message UInt32)
  /-- It comes from the one node into the inbound queue of the other. -/
  | received (i j : Fin N) (message : Message UInt32)
  /-- A node takes it from its inbound queue and handles it. -/
  | handled (j : Fin N) (message : Message UInt32)

namespace Transfer

variable {N : Nat}

/-- What the node put into its outbound queue. -/
def queuedBy (i : Fin N) : Transfer N → List (Message UInt32)
  | queued j msg => if j = i then [msg] else []
  | _ => []

/-- What the network took from the outbound queue of the node. -/
def unqueuedFrom (i : Fin N) : Transfer N → List (Message UInt32)
  | unqueued j msg => if j = i then [msg] else []
  | _ => []

/-- What came from the node into inbound queues. -/
def receivedFrom (i : Fin N) : Transfer N → List (Message UInt32)
  | received j _ msg => if j = i then [msg] else []
  | _ => []

/-- What came into the inbound queue of the node. -/
def receivedBy (j : Fin N) : Transfer N → List (Message UInt32)
  | received _ i msg => if i = j then [msg] else []
  | _ => []

/-- What the node took from its inbound queue. -/
def handledBy (j : Fin N) : Transfer N → List (Message UInt32)
  | handled i msg => if i = j then [msg] else []
  | _ => []

end Transfer

/-- What a call does to messages on their way, with the calls under it: the loop over the outbound messages of the sender is under
the call that hands a message to a node. What finds a queue full is not put into it. -/
def NetworkCall.transfers {N : Nat} (ch : NetworkChoice) (w : CentralizedNetwork N) (rest : List (NetworkCall N)) :
    NetworkCall N → List (Transfer N)
  | .app j (.base (.recv msg)) =>
    match rest with
    | .outbound i _ :: _ => if (w.applications j).inqueue.length < inqueueLimit then [.received i j msg] else []
    | _ => []
  | .app j (.base .drain) => (w.applications j).inqueue.head?.toList.map (.handled j)
  | .app i c =>
    if (w.applications i).outqueue.length < outqueueLimit then ((w.applications i).putsOut ch.toChoice c).toList.map (.queued i)
    else []
  | .outbound i _ => (w.applications i).outqueue.head?.toList.map (.unqueued i)
  | _ => []

/-- What a step does to messages on their way. -/
def transfers {N : Nat} (m : NetworkConfig N) : NetworkLabel N → List (Transfer N)
  | .run ch =>
    match m.stack with
    | [] => []
    | x :: rest => x.transfers ch m.state rest
  | _ => []

/-- The message that a call brings from one node to another. -/
def NetworkCall.brings {N : Nat} : NetworkCall N → Option (Message UInt32)
  | .passAlongMessage msg => some msg
  | .call _ (.base (.recv msg)) => some msg
  | .app _ (.base (.recv msg)) => some msg
  | _ => none

/-- The message that the network took from the node and did not hand to another one yet, if there is one. -/
def underwayFrom {N : Nat} (i : Fin N) : List (NetworkCall N) → List (Message UInt32)
  | x :: .outbound j _ :: _ => if j = i then x.brings.toList else []
  | _ => []

/-- What brings a message is on top, over the loop that took the message from its sender. -/
structure Brings {N : Nat} (stack : List (NetworkCall N)) : Prop where
  top : ∀ x rest msg, stack = x :: rest → x.brings = some msg → ∃ i total tail, rest = .outbound i total :: tail
  below : ∀ x ∈ stack.tail, x.brings = none

/-- A call loses a message: it is too long for the link, nobody lives where it is to go, or the inbound queue there is full. What
does not fit into the rest of the link's limit goes to the end of the outbound queue, as if it was lost and sent again. -/
def NetworkCall.loses {N : Nat} (w : CentralizedNetwork N) : NetworkCall N → Bool
  | .outbound i total => (w.applications i).outqueue.head?.any (fun msg => decide (w.linkLimit.toNat < total + msg.data.length))
  | .passAlongMessage msg => (w.inhabitants.find? msg.destination).isNone
  | .app j (.base (.recv _)) => decide (inqueueLimit ≤ (w.applications j).inqueue.length)
  | _ => false

def loses {N : Nat} (m : NetworkConfig N) : NetworkLabel N → Bool
  | .run _ => m.stack.head?.any (NetworkCall.loses m.state)
  | _ => false

variable {N : Nat} {Γ : Ctx} {config : Fin N → Config} {key : Fin N → KademliaKey} {offset : Fin N → Time} {limit : UInt32}
  {ok : NetworkConfig N → NetworkLabel N → Prop} {m m' : NetworkConfig N} {l : NetworkLabel N} {w w' : CentralizedNetwork N}
  {ch : NetworkChoice} {x y : NetworkCall N} {cs rest : List (NetworkCall N)} {i j : Fin N} {c : Call} {msg : Message UInt32}

/-- Where no call brings a message. -/
theorem Brings.of_none {stack : List (NetworkCall N)} (h : ∀ x ∈ stack, x.brings = none) : Brings stack := by
  refine ⟨?_, fun x hx => h x (List.mem_of_mem_tail hx)⟩
  rintro x rest msg rfl hx
  rw [h x List.mem_cons_self] at hx
  cases hx

namespace TransfersAux

/-! ## What brings a message -/

/-- Only the loop over the outbound messages, and what brings a message, makes calls that bring one. -/
theorem brings_of_makes (h : NetworkMakes Γ ch w x y) (hx : x.brings = none) (hout : ∀ i total, x ≠ .outbound i total) :
    y.brings = none := by
  cases h with
  | inside hy => cases hy <;> rfl
  | @handOn i c =>
    cases c with
    | base b =>
      cases b with
      | recv msg => cases hx
      | _ => rfl
    | _ => rfl
  | passAlong | sendAgain | nextOutbound => exact absurd rfl (hout _ _)
  | recv => cases hx
  | _ => rfl

theorem brings_of_enters (h : (networkProgram Γ N).event x = true ∨ (networkProgram Γ N).reentry x = true) : x.brings = none := by
  have hcarries := carries_of_enters h
  unfold NetworkCall.brings
  split <;> first | rfl | cases hcarries

/-- A call that brings a message makes one that does, or none. -/
theorem exec_brings (he : CentralizedNetwork.exec Γ ch x w = some (w', cs)) (hx : x.brings = some msg) :
    cs = [] ∨ ∃ y, cs = [y] ∧ y.brings = some msg := by
  unfold NetworkCall.brings at hx
  split at hx
  · cases hx
    cases he
    unfold CentralizedNetwork.passAlongMessage
    split
    · exact Or.inl rfl
    · exact Or.inr ⟨_, rfl, rfl⟩
  · cases hx
    cases he
    exact Or.inr ⟨_, rfl, rfl⟩
  · cases hx
    cases he
    exact Or.inl rfl
  · cases hx

/-- The loop over the outbound messages passes a message along, or there is none, or it is lost to the limit of the link. -/
theorem exec_outbound {total : Nat} (he : CentralizedNetwork.exec Γ ch (.outbound i total) w = some (w', cs)) :
    ((∀ y ∈ cs, y.brings = none) ∧
      ((w.applications i).outqueue = [] ∨ NetworkCall.loses w (.outbound i total) = true)) ∨
    ∃ msg queue, (w.applications i).outqueue = msg :: queue ∧
      cs = [.passAlongMessage msg, .outbound i (total + msg.data.length)] := by
  obtain ⟨-, rfl⟩ := Prod.mk.inj (Option.some.inj he)
  split
  · rename_i hnil
    exact Or.inl ⟨fun y hy => absurd hy List.not_mem_nil, Or.inl hnil⟩
  · rename_i msg queue hqueue
    have hloses : w.linkLimit.toNat < total + msg.data.length → NetworkCall.loses w (.outbound i total) = true := by
      intro hlimit
      rw [NetworkCall.loses, hqueue]
      exact decide_eq_true hlimit
    dsimp only
    split_ifs with hsize hlimit
    · exact Or.inl ⟨fun y hy => absurd hy List.not_mem_nil, Or.inr (hloses (by omega))⟩
    · refine Or.inl ⟨fun y hy => ?_, Or.inr (hloses hlimit)⟩
      rw [List.mem_singleton.1 hy]
      rfl
    · exact Or.inr ⟨msg, queue, hqueue, rfl⟩

/-- What brings a message stays on top of the loop that took it. -/
theorem brings_exec (he : CentralizedNetwork.exec Γ ch x w = some (w', cs)) (h : Brings (x :: rest)) : Brings (cs ++ rest) := by
  have hrest : ∀ y ∈ rest, y.brings = none := h.below
  have hnone : (∀ y ∈ cs, y.brings = none) → Brings (cs ++ rest) := by
    intro hcs
    refine .of_none (fun y hy => ?_)
    rcases List.mem_append.1 hy with hy | hy
    · exact hcs y hy
    · exact hrest y hy
  cases hx : x.brings with
  | some msg =>
    obtain ⟨i, total, tail, rfl⟩ := h.top x rest msg rfl hx
    rcases exec_brings he hx with rfl | ⟨y, rfl, hy⟩
    · exact .of_none hrest
    · refine ⟨fun z rest' _ heq _ => ?_, hrest⟩
      obtain ⟨-, rfl⟩ := List.cons.inj heq
      exact ⟨i, total, tail, rfl⟩
  | none =>
    by_cases hout : ∃ i total, x = .outbound i total
    · obtain ⟨i, total, rfl⟩ := hout
      rcases exec_outbound he with ⟨hcs, -⟩ | ⟨msg, queue, -, rfl⟩
      · exact hnone hcs
      · refine ⟨fun z rest' _ heq _ => ?_, fun y hy => ?_⟩
        · obtain ⟨-, rfl⟩ := List.cons.inj heq
          exact ⟨i, _, rest, rfl⟩
        · rcases List.mem_cons.1 hy with rfl | hy
          · rfl
          · exact hrest y hy
    · exact hnone (fun y hy => brings_of_makes (CentralizedNetwork.exec_makes he y hy) hx (fun i total heq => hout ⟨i, total, heq⟩))

theorem brings_of_userCode (h : x.isUserCode = true) : x.brings = none := by
  obtain ⟨i, rfl⟩ := isUserCode_cases h
  rfl

/-- In every run, what brings a message is on top of the loop that took it. -/
theorem brings_of_run (h : Run (networkProgram Γ N) ok (startNetwork config key offset limit) m) : Brings m.stack := by
  refine h.invariant (I := fun m => Brings m.stack) (.of_none (fun x hx => absurd hx List.not_mem_nil)) ?_
  intro m l m' hr hI hl hs
  cases hs with
  | run hw he => exact brings_exec he hI
  | event hx => exact .of_none (fun y hy => List.mem_singleton.1 hy ▸ brings_of_enters (Or.inl hx))
  | @reentry x f rest w tr hf hx =>
    refine .of_none (fun y hy => ?_)
    rcases List.mem_cons.1 hy with rfl | hy
    · exact brings_of_enters (Or.inr hx)
    · rcases List.mem_cons.1 hy with rfl | hy
      · exact brings_of_userCode hf
      · exact hI.below y hy
  | leave hf => exact .of_none hI.below

/-- The nodes take no message from their outbound queues. -/
theorem ne_unqueueOut (h : Run (networkProgram Γ N) ok (startNetwork config key offset limit) m) (hc : .app i c ∈ m.stack) :
    c ≠ .base .unqueueOut := by
  refine inside_of_run (C := fun _ _ c => c ≠ .base .unqueueOut) h (fun _ _ _ _ _ h => h) ?_ ?_ i c hc
  · rintro _ _ c hc rfl
    cases hc
  · rintro _ _ c z _ _ _ _ hz rfl
    cases hz

/-! ## What a call does to the messages of one node -/

/-- A message of each entry. -/
theorem flatMap_map {f : Message UInt32 → Transfer N} {g : Transfer N → List (Message UInt32)} {o : Option (Message UInt32)}
    (h : ∀ msg, g (f msg) = []) : (o.toList.map f).flatMap g = [] := by
  cases o with
  | none => rfl
  | some msg => simp [h]

theorem receivedBy_of_ne (h : ∀ msg, x ≠ .app j (.base (.recv msg))) :
    (x.transfers ch w rest).flatMap (Transfer.receivedBy j) = [] := by
  unfold NetworkCall.transfers
  split
  · rename_i j' msg
    have hj : j' ≠ j := fun hj => h msg (hj ▸ rfl)
    (repeat' split) <;> simp [Transfer.receivedBy, hj]
  · exact flatMap_map (fun _ => rfl)
  · split
    · exact flatMap_map (fun _ => rfl)
    · rfl
  · exact flatMap_map (fun _ => rfl)
  · rfl

theorem handledBy_of_ne (h : x ≠ .app j (.base .drain)) : (x.transfers ch w rest).flatMap (Transfer.handledBy j) = [] := by
  unfold NetworkCall.transfers
  split
  · (repeat' split) <;> rfl
  · rename_i j'
    have hj : j' ≠ j := fun hj => h (hj ▸ rfl)
    exact flatMap_map (fun _ => if_neg hj)
  · split
    · exact flatMap_map (fun _ => rfl)
    · rfl
  · exact flatMap_map (fun _ => rfl)
  · rfl

theorem receivedFrom_of_ne (h : ∀ j msg, x ≠ .app j (.base (.recv msg))) :
    (x.transfers ch w rest).flatMap (Transfer.receivedFrom i) = [] := by
  unfold NetworkCall.transfers
  split
  · exact absurd rfl (h _ _)
  · exact flatMap_map (fun _ => rfl)
  · split
    · exact flatMap_map (fun _ => rfl)
    · rfl
  · exact flatMap_map (fun _ => rfl)
  · rfl

/-- What the network takes is from the loop over the outbound messages. -/
theorem unqueuedFrom_of_ne (h : ∀ total, x ≠ .outbound i total) :
    (x.transfers ch w rest).flatMap (Transfer.unqueuedFrom i) = [] := by
  unfold NetworkCall.transfers
  split
  · (repeat' split) <;> rfl
  · exact flatMap_map (fun _ => rfl)
  · split
    · exact flatMap_map (fun _ => rfl)
    · rfl
  · rename_i i' total
    have hi : i' ≠ i := fun hi => h total (hi ▸ rfl)
    exact flatMap_map (fun _ => if_neg hi)
  · rfl

theorem queuedBy_of_ne (h : ∀ c, x ≠ .app i c) : (x.transfers ch w rest).flatMap (Transfer.queuedBy i) = [] := by
  unfold NetworkCall.transfers
  split
  · (repeat' split) <;> rfl
  · exact flatMap_map (fun _ => rfl)
  · rename_i i' c _ _
    have hi : i' ≠ i := fun hi => h c (hi ▸ rfl)
    split
    · exact flatMap_map (fun _ => if_neg hi)
    · rfl
  · exact flatMap_map (fun _ => rfl)
  · rfl

/-- A node queues what it puts out, if there is room. -/
theorem queuedBy_app : (NetworkCall.transfers ch w rest (.app i c)).flatMap (Transfer.queuedBy i) =
    if (w.applications i).outqueue.length < outqueueLimit then ((w.applications i).putsOut ch.toChoice c).toList else [] := by
  have hqueued : ∀ o : Option (Message UInt32), (o.toList.map (Transfer.queued i)).flatMap (Transfer.queuedBy i) = o.toList := by
    intro o
    cases o <;> simp [Transfer.queuedBy]
  have hother : NetworkCall.transfers ch w rest (.app i c) =
      (if (w.applications i).outqueue.length < outqueueLimit then
        ((w.applications i).putsOut ch.toChoice c).toList.map (Transfer.queued i) else []) →
      (NetworkCall.transfers ch w rest (.app i c)).flatMap (Transfer.queuedBy i) =
        if (w.applications i).outqueue.length < outqueueLimit then ((w.applications i).putsOut ch.toChoice c).toList else [] := by
    intro heq
    rw [heq]
    split_ifs
    · exact hqueued _
    · rfl
  cases c with
  | base b =>
    cases b with
    | recv msg =>
      have hnone : (w.applications i).putsOut ch.toChoice (.base (.recv msg)) = none := rfl
      simp only [NetworkCall.transfers, hnone]
      (repeat' split) <;> rfl
    | drain =>
      have hnone : (w.applications i).putsOut ch.toChoice (.base .drain) = none := rfl
      simp only [NetworkCall.transfers, hnone]
      rw [flatMap_map (fun _ => rfl), Option.toList_none, ite_self]
    | _ => exact hother rfl
  | _ => exact hother rfl

theorem inqueue_recv {n : KademliaNode} {p : KademliaNode × List Call} {ch : Choice}
    (h : KademliaNode.exec Γ ch (.base (.recv msg)) n = some p) :
    p.1.inqueue = n.inqueue ++ if n.inqueue.length < inqueueLimit then [msg] else [] := by
  rw [exec_base h]
  exact BaseApplication.queueIn_inqueue _ _

theorem inqueue_drain {n : KademliaNode} {p : KademliaNode × List Call} {ch : Choice}
    (h : KademliaNode.exec Γ ch (.base .drain) n = some p) : p.1.inqueue = n.inqueue.tail := by
  rw [exec_base h]
  simp only [BaseApplication.exec]
  split <;> rename_i hq <;> rw [hq] <;> rfl

/-- The inbound queue gives out what it got. -/
theorem inqueue_exec (he : CentralizedNetwork.exec Γ ch x w = some (w', cs)) (hbrings : Brings (x :: rest)) (j : Fin N) :
    (w.applications j).inqueue ++ (x.transfers ch w rest).flatMap (Transfer.receivedBy j) =
      (x.transfers ch w rest).flatMap (Transfer.handledBy j) ++ (w'.applications j).inqueue := by
  by_cases hrecv : ∃ msg, x = .app j (.base (.recv msg))
  · obtain ⟨msg, rfl⟩ := hrecv
    obtain ⟨i, total, tail, rfl⟩ := hbrings.top _ rest msg rfl rfl
    obtain ⟨q, hq, heq⟩ := CentralizedNetwork.exec_app he
    obtain ⟨rfl, -⟩ := Prod.mk.inj heq
    rw [handledBy_of_ne (by simp), CentralizedNetwork.applications_setApplication_self, inqueue_recv hq]
    simp only [NetworkCall.transfers]
    split_ifs <;> simp [Transfer.receivedBy]
  by_cases hdrain : x = .app j (.base .drain)
  · subst hdrain
    obtain ⟨q, hq, heq⟩ := CentralizedNetwork.exec_app he
    obtain ⟨rfl, -⟩ := Prod.mk.inj heq
    rw [receivedBy_of_ne (by simp), CentralizedNetwork.applications_setApplication_self, inqueue_drain hq]
    simp only [NetworkCall.transfers]
    cases (w.applications j).inqueue <;> simp [Transfer.handledBy]
  · rw [receivedBy_of_ne (fun msg h => hrecv ⟨msg, h⟩), handledBy_of_ne hdrain, List.append_nil, List.nil_append]
    rcases CentralizedNetwork.applications_cases he j with h | ⟨c, q, rfl, h, hj⟩ | ⟨_, -, hj⟩ | ⟨_, -, hj⟩
    · rw [h]
    · rw [hj]
      rcases exec_inqueue h with heq | ⟨rfl, -⟩ | ⟨msg, rfl, -⟩
      · exact heq.symm
      · exact absurd rfl hdrain
      · exact absurd ⟨msg, rfl⟩ hrecv
    · rw [hj]
      rfl
    · rw [hj]
      rfl

theorem inqueue_step (hr : Run (networkProgram Γ N) ok (startNetwork config key offset limit) m)
    (hs : Step (networkProgram Γ N) m l m') (j : Fin N) :
    (m.state.applications j).inqueue ++ (transfers m l).flatMap (Transfer.receivedBy j) =
      (transfers m l).flatMap (Transfer.handledBy j) ++ (m'.state.applications j).inqueue := by
  cases hs with
  | run hw he => exact inqueue_exec he (brings_of_run hr) j
  | event | reentry | leave => simp [transfers]

/-- The outbound queue gives out what it got. -/
theorem outqueue_exec (he : CentralizedNetwork.exec Γ ch x w = some (w', cs)) (hne : ∀ i, x ≠ .app i (.base .unqueueOut))
    (i : Fin N) : (w.applications i).outqueue ++ (x.transfers ch w rest).flatMap (Transfer.queuedBy i) =
      (x.transfers ch w rest).flatMap (Transfer.unqueuedFrom i) ++ (w'.applications i).outqueue := by
  by_cases hinside : ∃ c, x = .app i c
  · obtain ⟨c, rfl⟩ := hinside
    obtain ⟨q, hq, heq⟩ := CentralizedNetwork.exec_app he
    obtain ⟨rfl, -⟩ := Prod.mk.inj heq
    rw [unqueuedFrom_of_ne (by simp), queuedBy_app, List.nil_append, CentralizedNetwork.applications_setApplication_self]
    rcases exec_outqueue hq with ⟨rfl, -⟩ | hout
    · exact absurd rfl (hne i)
    · exact hout.symm
  rw [queuedBy_of_ne (fun c h => hinside ⟨c, h⟩), List.append_nil]
  by_cases hout : ∃ total, x = .outbound i total
  · obtain ⟨total, rfl⟩ := hout
    obtain ⟨rfl, -⟩ := Prod.mk.inj (Option.some.inj he)
    rw [CentralizedNetwork.applications_setApplication_self]
    simp only [NetworkCall.transfers]
    change (w.applications i).outqueue = _ ++ (w.applications i).outqueue.tail
    cases (w.applications i).outqueue <;> simp [Transfer.unqueuedFrom]
  · rw [unqueuedFrom_of_ne (fun total h => hout ⟨total, h⟩), List.nil_append]
    rcases CentralizedNetwork.applications_cases he i with h | ⟨c, q, rfl, -, -⟩ | ⟨total, rfl, -⟩ | ⟨_, -, hi⟩
    · rw [h]
    · exact absurd ⟨c, rfl⟩ hinside
    · exact absurd ⟨total, rfl⟩ hout
    · rw [hi]
      rfl

theorem outqueue_step (hr : Run (networkProgram Γ N) ok (startNetwork config key offset limit) m)
    (hs : Step (networkProgram Γ N) m l m') (i : Fin N) :
    (m.state.applications i).outqueue ++ (transfers m l).flatMap (Transfer.queuedBy i) =
      (transfers m l).flatMap (Transfer.unqueuedFrom i) ++ (m'.state.applications i).outqueue := by
  cases hs with
  | @run ch x rest w tr w' cs hw he =>
    refine outqueue_exec he ?_ i
    rintro i rfl
    exact ne_unqueueOut hr List.mem_cons_self rfl
  | event | reentry | leave => simp [transfers]

theorem underwayFrom_of_top (hx : x.brings = none) : underwayFrom i (x :: rest) = [] := by
  cases rest with
  | nil => rfl
  | cons y tail =>
    cases y with
    | outbound i' total =>
      rw [underwayFrom, hx]
      exact ite_self _
    | _ => rfl

theorem underwayFrom_of_none {stack : List (NetworkCall N)} (h : ∀ x ∈ stack, x.brings = none) : underwayFrom i stack = [] := by
  cases stack with
  | nil => rfl
  | cons x rest => exact underwayFrom_of_top (h x List.mem_cons_self)

/-- What is underway from the node on top of the loop that took it. -/
theorem underwayFrom_loop {total : Nat} {tail : List (NetworkCall N)} (hx : x.brings = some msg) :
    underwayFrom i (x :: .outbound j total :: tail) = if j = i then [msg] else [] := by
  rw [underwayFrom, hx]
  rfl

/-- The network takes a message from its sender. -/
theorem underway_outbound {total : Nat} (he : CentralizedNetwork.exec Γ ch (.outbound j total) w = some (w', cs))
    (hrest : ∀ y ∈ rest, y.brings = none) (i : Fin N) :
    (NetworkCall.transfers ch w rest (.outbound j total)).flatMap (Transfer.unqueuedFrom i) = underwayFrom i (cs ++ rest) ∨
      NetworkCall.loses w (.outbound j total) = true ∧ underwayFrom i (cs ++ rest) = [] := by
  rcases exec_outbound he with ⟨hcs, hqueue⟩ | ⟨msg, queue, hqueue, rfl⟩
  · have hnone : underwayFrom i (cs ++ rest) = [] := by
      refine underwayFrom_of_none (fun y hy => ?_)
      rcases List.mem_append.1 hy with hy | hy
      · exact hcs y hy
      · exact hrest y hy
    rcases hqueue with hnil | hloses
    · left
      rw [hnone]
      simp only [NetworkCall.transfers, hnil]
      rfl
    · exact Or.inr ⟨hloses, hnone⟩
  · left
    have hone : underwayFrom i (.passAlongMessage msg :: .outbound j (total + msg.data.length) :: rest) =
        if j = i then [msg] else [] := underwayFrom_loop rfl
    refine Eq.trans ?_ hone.symm
    simp only [NetworkCall.transfers, hqueue]
    exact List.append_nil _

/-- A message that is underway stays so, comes into a queue or is lost. -/
theorem underway_brings {total : Nat} {tail : List (NetworkCall N)} (he : CentralizedNetwork.exec Γ ch x w = some (w', cs))
    (hx : x.brings = some msg) (i : Fin N) :
    underwayFrom i (x :: .outbound j total :: tail) =
      (x.transfers ch w (.outbound j total :: tail)).flatMap (Transfer.receivedFrom i) ++
        underwayFrom i (cs ++ .outbound j total :: tail) ∨
    x.loses w = true ∧ (x.transfers ch w (.outbound j total :: tail)).flatMap (Transfer.receivedFrom i) ++
      underwayFrom i (cs ++ .outbound j total :: tail) = [] := by
  have hloop : underwayFrom i (.outbound j total :: tail) = [] := underwayFrom_of_top rfl
  rw [underwayFrom_loop hx]
  unfold NetworkCall.brings at hx
  split at hx
  · rename_i msg'
    cases hx
    obtain ⟨-, rfl⟩ := Prod.mk.inj (Option.some.inj he)
    cases hf : w.inhabitants.find? msg.destination with
    | none =>
      right
      rw [CentralizedNetwork.passAlongMessage, hf]
      exact ⟨Option.isNone_iff_eq_none.2 hf, hloop⟩
    | some j' =>
      left
      rw [CentralizedNetwork.passAlongMessage, hf]
      rfl
  · cases hx
    obtain ⟨-, rfl⟩ := Prod.mk.inj (Option.some.inj he)
    exact Or.inl rfl
  · rename_i j' msg'
    cases hx
    obtain rfl : cs = [] := (Prod.mk.inj (Option.some.inj he)).2.symm
    rw [List.nil_append, hloop, List.append_nil]
    by_cases hroom : (w.applications j').inqueue.length < inqueueLimit
    · left
      simp only [NetworkCall.transfers, if_pos hroom]
      exact (List.append_nil _).symm
    · right
      simp only [NetworkCall.transfers, if_neg hroom]
      exact ⟨decide_eq_true (Nat.not_lt.1 hroom), rfl⟩
  · cases hx

/-- The network hands on what it took, in the same order, or loses it. -/
theorem underway_exec (he : CentralizedNetwork.exec Γ ch x w = some (w', cs)) (hbrings : Brings (x :: rest)) (i : Fin N) :
    underwayFrom i (x :: rest) ++ (x.transfers ch w rest).flatMap (Transfer.unqueuedFrom i) =
      (x.transfers ch w rest).flatMap (Transfer.receivedFrom i) ++ underwayFrom i (cs ++ rest) ∨
    x.loses w = true ∧ (x.transfers ch w rest).flatMap (Transfer.receivedFrom i) ++ underwayFrom i (cs ++ rest) = [] := by
  by_cases hout : ∃ i' total, x = .outbound i' total
  · obtain ⟨i', total, rfl⟩ := hout
    rw [receivedFrom_of_ne (by simp), underwayFrom_of_top rfl, List.nil_append, List.nil_append]
    exact underway_outbound he hbrings.below i
  rw [unqueuedFrom_of_ne (fun total h => hout ⟨i, total, h⟩), List.append_nil]
  cases hx : x.brings with
  | none =>
    left
    have hcs : ∀ y ∈ cs ++ rest, y.brings = none := by
      intro y hy
      rcases List.mem_append.1 hy with hy | hy
      · exact brings_of_makes (CentralizedNetwork.exec_makes he y hy) hx (fun i total heq => hout ⟨i, total, heq⟩)
      · exact hbrings.below y hy
    have hne : ∀ j msg, x ≠ .app j (.base (.recv msg)) := by
      rintro j msg rfl
      cases hx
    rw [underwayFrom_of_top hx, receivedFrom_of_ne hne, underwayFrom_of_none hcs]
    rfl
  | some msg =>
    obtain ⟨i', total, tail, rfl⟩ := hbrings.top _ rest msg rfl hx
    exact underway_brings he hx i

/-- A step hands on what the network took, in the same order, or loses it. -/
theorem underway_step (hr : Run (networkProgram Γ N) ok (startNetwork config key offset limit) m)
    (hs : Step (networkProgram Γ N) m l m') (i : Fin N) :
    underwayFrom i m.stack ++ (transfers m l).flatMap (Transfer.unqueuedFrom i) =
      (transfers m l).flatMap (Transfer.receivedFrom i) ++ underwayFrom i m'.stack ∨
    loses m l = true ∧ (transfers m l).flatMap (Transfer.receivedFrom i) ++ underwayFrom i m'.stack = [] := by
  cases hs with
  | run hw he => exact underway_exec he (brings_of_run hr) i
  | event hx =>
    left
    rw [underwayFrom_of_top (brings_of_enters (Or.inl hx))]
    rfl
  | reentry hf hx =>
    left
    rw [underwayFrom_of_top (brings_of_enters (Or.inr hx)), underwayFrom_of_top (brings_of_userCode hf)]
    rfl
  | leave hf =>
    left
    have hnone : underwayFrom i _ = [] := underwayFrom_of_none (brings_of_run hr).below
    rw [underwayFrom_of_top (brings_of_userCode hf)]
    exact hnone.symm

end TransfersAux

open TransfersAux

/-! ## Journals -/

section Journals

variable {es : List (Transfer N)}

/-- What a node queued is what the network took from it, and then what still waits. -/
theorem queuedBy_of_journal (h : Journal (networkProgram Γ N) ok transfers (startNetwork config key offset limit) es m)
    (i : Fin N) : es.flatMap (Transfer.queuedBy i) = es.flatMap (Transfer.unqueuedFrom i) ++ (m.state.applications i).outqueue :=
  h.queue (fun m => (m.state.applications i).outqueue) rfl (fun _ _ _ hr _ hs => outqueue_step hr hs i)

/-- What came to a node is what it handled, and then what still waits. -/
theorem receivedBy_of_journal (h : Journal (networkProgram Γ N) ok transfers (startNetwork config key offset limit) es m)
    (j : Fin N) : es.flatMap (Transfer.receivedBy j) = es.flatMap (Transfer.handledBy j) ++ (m.state.applications j).inqueue :=
  h.queue (fun m => (m.state.applications j).inqueue) rfl (fun _ _ _ hr _ hs => inqueue_step hr hs j)

/-- What came from a node, and then what is underway from it, is part of what the network took from it, in the same order. -/
theorem receivedFrom_of_journal (h : Journal (networkProgram Γ N) ok transfers (startNetwork config key offset limit) es m)
    (i : Fin N) :
    (es.flatMap (Transfer.receivedFrom i) ++ underwayFrom i m.stack).Sublist (es.flatMap (Transfer.unqueuedFrom i)) := by
  refine h.channel (fun m => underwayFrom i m.stack) rfl (fun m l m' hr _ hs => ?_)
  rcases underway_step hr hs i with heq | ⟨-, hnil⟩
  · exact heq ▸ List.Sublist.refl _
  · exact hnil ▸ List.nil_sublist _

/-- Where no step loses a message, it is all of it. -/
theorem receivedFrom_of_journal_of_keeps (hkeeps : ∀ m l, Run (networkProgram Γ N) ok (startNetwork config key offset limit) m →
      ok m l → loses m l = false)
    (h : Journal (networkProgram Γ N) ok transfers (startNetwork config key offset limit) es m) (i : Fin N) :
    es.flatMap (Transfer.unqueuedFrom i) = es.flatMap (Transfer.receivedFrom i) ++ underwayFrom i m.stack := by
  refine h.queue (fun m => underwayFrom i m.stack) rfl (fun m l m' hr hl hs => ?_)
  refine (underway_step hr hs i).resolve_right (fun hloses => ?_)
  rw [hkeeps m l hr hl] at hloses
  cases hloses.1

end Journals

end Dhtsim
