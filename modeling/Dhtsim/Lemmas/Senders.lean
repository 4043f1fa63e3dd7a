import Dhtsim.Lemmas.Transfers

/-!
# Who sends in whose name

In a network that is used properly every message names its sender, from the queue of the sender to the queue of the node that it is
for.
-/

namespace Dhtsim

open CallMachine KademliaNode

/-- The message names the node as its originator. -/
def NamedBy {N : Nat} (m : NetworkConfig N) (i : Fin N) (msg : Message UInt32) : Prop :=
  addressOf m i ≠ 0 ∧ msg.originator = addressOf m i

/-- The message that a call sends, with the node that it sends it from. -/
def NetworkCall.sends {N : Nat} : NetworkCall N → Option (Fin N × Message UInt32)
  | .app i (.base (.send msg _ _ _)) => some (i, msg)
  | .call i (.base (.send msg _ _ _)) => some (i, msg)
  | _ => none

/-- Every message names the node that sends it. -/
structure SenderState {N : Nat} (m : NetworkConfig N) : Prop where
  queues : ∀ i, ∀ msg ∈ (m.state.applications i).outqueue, NamedBy m i msg
  calls : ∀ x ∈ m.stack, ∀ i msg, x.sends = some (i, msg) → NamedBy m i msg
  underway : ∀ i, ∀ msg ∈ underwayFrom i m.stack, NamedBy m i msg

variable {N : Nat} {Γ : Ctx} {config : Fin N → Config} {key : Fin N → KademliaKey} {offset : Fin N → Time} {limit : UInt32}
  {ok : NetworkConfig N → NetworkLabel N → Prop} {m m' : NetworkConfig N} {l : NetworkLabel N} {w w' : CentralizedNetwork N}
  {ch : NetworkChoice} {x y : NetworkCall N} {cs rest : List (NetworkCall N)} {i j : Fin N} {c z : Call} {msg : Message UInt32}

theorem NamedBy.mono (h : NamedBy m i msg) (hsettled : Settled m m') : NamedBy m' i msg := by
  have haddr := hsettled i h.1
  exact ⟨haddr.symm ▸ h.1, h.2.trans haddr.symm⟩

namespace SendersAux

open TransfersAux

theorem originator_tagged (drawn : Tag) : (msg.tagged drawn).originator = msg.originator := by
  unfold Message.tagged
  split <;> rfl

/-- What a node sends it sends in its own name. -/
theorem makes_namedBy (hI : HonestState key m) (haddr : addressOf m i ≠ 0) (hmem : .app i c ∈ m.stack) {ch : Choice}
    (h : Makes Γ ch (m.state.applications i) c z) (hz : (NetworkCall.app i z).sends = some (j, msg)) : NamedBy m j msg := by
  have hown : ∀ req, c.carries = some req → (∀ cb mr t, c ≠ .base (.send req cb mr t)) → req.destination = addressOf m i :=
    (hI.calls i c hmem).handles
  cases h with
  | pingSend | stepSend | storeSend | pong =>
    cases hz
    exact ⟨haddr, rfl⟩
  | findNodesReply | storeReply =>
    cases hz
    exact ⟨haddr, hown _ rfl (by simp)⟩
  | _ => cases hz

/-- What comes in sends nothing by itself. -/
theorem sends_of_enters (h : (networkProgram Γ N).event x = true ∨ (networkProgram Γ N).reentry x = true) : x.sends = none := by
  have hcarries := carries_of_enters h
  unfold NetworkCall.sends
  split <;> first | rfl | cases hcarries

/-- The network makes a node send what it hands to it to be sent. -/
theorem sends_call (i : Fin N) (c : Call) : (NetworkCall.call i c).sends = (NetworkCall.app i c).sends := by
  cases c with
  | base b => cases b <;> rfl
  | _ => rfl

/-- What the network takes was in the queue. -/
theorem mem_outqueue_of_unqueued (h : msg ∈ (transfers m l).flatMap (Transfer.unqueuedFrom i)) :
    msg ∈ (m.state.applications i).outqueue := by
  obtain ⟨w, stack, tr⟩ := m
  cases l with
  | run ch =>
    cases stack with
    | nil => cases h
    | cons x rest =>
      have h : msg ∈ (x.transfers ch w rest).flatMap (Transfer.unqueuedFrom i) := h
      by_cases hout : ∃ total, x = .outbound i total
      · obtain ⟨total, rfl⟩ := hout
        change msg ∈ (w.applications i).outqueue
        cases hqueue : (w.applications i).outqueue with
        | nil =>
          simp only [NetworkCall.transfers, hqueue] at h
          cases h
        | cons first queue =>
          simp only [NetworkCall.transfers, hqueue, List.head?_cons, Option.toList_some, List.map_cons, List.map_nil,
            List.flatMap_cons, List.flatMap_nil, Transfer.unqueuedFrom, if_true, List.append_nil] at h
          exact List.mem_singleton.1 h ▸ List.mem_cons_self
      · rw [unqueuedFrom_of_ne (fun total h => hout ⟨total, h⟩)] at h
        cases h
  | enter c => cases h
  | leave => cases h

section Step

variable (hΓ : Γ.Decodes) (hok : ∀ m l, ok m l → freshNetworkTags m l = true ∧ properUse m l = true)
  (hr : Run (networkProgram Γ N) ok (startNetwork config key offset limit) m) (hI : SenderState m)
include hΓ hok hr hI

/-- What is in an outbound queue after a step names the node. -/
theorem queues_step (hs : Step (networkProgram Γ N) m l m') (hsettled : Settled m m') :
    ∀ i, ∀ msg ∈ (m'.state.applications i).outqueue, NamedBy m' i msg := by
  intro i msg hmsg
  suffices hnamed : NamedBy m i msg from hnamed.mono hsettled
  cases hs with
  | @run ch x rest w tr w' cs hw he =>
    rcases CentralizedNetwork.applications_cases he i with h | ⟨c, q, rfl, h, hi⟩ | ⟨_, -, hi⟩ | ⟨_, -, hi⟩
    · exact hI.queues i msg (h ▸ hmsg)
    · rw [hi] at hmsg
      rcases exec_outqueue h with ⟨-, hout⟩ | hout
      · exact hI.queues i msg (List.mem_of_mem_tail (hout ▸ hmsg))
      · rw [hout] at hmsg
        rcases List.mem_append.1 hmsg with hmsg | hmsg
        · exact hI.queues i msg hmsg
        · split at hmsg
          · rcases putsOut_cases (Option.mem_toList.1 hmsg) with ⟨req, cb, mr, t, rfl, -, rfl⟩ | ⟨tag, r, -, -, hf, rfl⟩
            · obtain ⟨haddr, horig⟩ := hI.calls _ List.mem_cons_self i req rfl
              exact ⟨haddr, (originator_tagged _).trans horig⟩
            · -- what is sent again was a request
              have hrec := SortedMap.find?_eq_some_iff.1 hf
              obtain ⟨q, hq, rfl, hmsg, -⟩ := (trafficState_of_run hΓ (fun m l h => (hok m l h).1) hr).records i tag r hrec
              have hq := (honestState_of_run hΓ hok hr).2.requests q hq
              exact ⟨hq.address, (originator_tagged _).trans (hmsg ▸ hq.originator)⟩
          · cases hmsg
    · rw [hi] at hmsg
      exact hI.queues i msg (List.mem_of_mem_tail hmsg)
    · rw [hi] at hmsg
      exact hI.queues i msg hmsg
  | event | reentry | leave => exact hI.queues i msg hmsg

/-- What is sent after a step names the node. -/
theorem calls_step (hs : Step (networkProgram Γ N) m l m') (hsettled : Settled m m') :
    ∀ x ∈ m'.stack, ∀ i msg, x.sends = some (i, msg) → NamedBy m' i msg := by
  intro x hmem i msg hx
  suffices hnamed : NamedBy m i msg from hnamed.mono hsettled
  have hA : AddressState m := addressState_of_run (fun m l h => addedOnce_of_properUse (hok m l h).2) hr
  cases hs with
  | @run ch y rest w tr w' cs hw he =>
    rcases List.mem_append.1 hmem with hmem | hmem
    · cases CentralizedNetwork.exec_makes he _ hmem with
      | @inside i' c z hz =>
        have hdie : c ≠ .base .die := by
          rintro rfl
          cases hz
        exact makes_namedBy (honestState_of_run hΓ hok hr).2 (hA.subject _ List.mem_cons_self i' (if_neg hdie))
          List.mem_cons_self hz hx
      | @handOn i' c => exact hI.calls _ List.mem_cons_self i msg ((sends_call i' c).trans hx)
      | sendAgain hq hlimit =>
        cases hx
        exact hI.queues _ _ (hq ▸ List.mem_cons_self)
      | _ => cases hx
    · exact hI.calls x (List.mem_cons_of_mem _ hmem) i msg hx
  | @event y w tr hy =>
    rw [List.mem_singleton.1 hmem, sends_of_enters (Or.inl hy)] at hx
    cases hx
  | @reentry y f rest w tr hf hy =>
    rcases List.mem_cons.1 hmem with rfl | hmem
    · rw [sends_of_enters (Or.inr hy)] at hx
      cases hx
    · exact hI.calls x hmem i msg hx
  | leave hf => exact hI.calls x (List.mem_cons_of_mem _ hmem) i msg hx

omit hΓ hok in
/-- What is underway after a step names the node that it is from. -/
theorem underway_named (hs : Step (networkProgram Γ N) m l m') (hsettled : Settled m m') :
    ∀ i, ∀ msg ∈ underwayFrom i m'.stack, NamedBy m' i msg := by
  intro i msg hmsg
  suffices hnamed : NamedBy m i msg from hnamed.mono hsettled
  rcases underway_step hr hs i with heq | ⟨-, hnil⟩
  · have hmem : msg ∈ underwayFrom i m.stack ++ (transfers m l).flatMap (Transfer.unqueuedFrom i) :=
      heq ▸ List.mem_append_right _ hmsg
    rcases List.mem_append.1 hmem with hmem | hmem
    · exact hI.underway i msg hmem
    · exact hI.queues i msg (mem_outqueue_of_unqueued hmem)
  · rw [(List.append_eq_nil_iff.1 hnil).2] at hmsg
    cases hmsg

end Step

end SendersAux

open SendersAux

/-- In every run of a network that is used properly, every message names the node that sends it. -/
theorem senderState_of_run (hΓ : Γ.Decodes) (hok : ∀ m l, ok m l → freshNetworkTags m l = true ∧ properUse m l = true)
    (h : Run (networkProgram Γ N) ok (startNetwork config key offset limit) m) : SenderState m := by
  refine h.invariant (I := SenderState) ⟨fun i msg hmsg => absurd hmsg List.not_mem_nil, by simp [startNetwork],
    fun i msg hmsg => absurd hmsg List.not_mem_nil⟩ ?_
  intro m l m' hr hI hl hs
  have hsettled : Settled m m' := HonestyAux.settled_of_run hok (fun _ _ h => h) hr (Run.refl.step hl hs.step_eq)
  exact ⟨queues_step hΓ hok hr hI hs hsettled, calls_step hΓ hok hr hI hs hsettled, underway_named hr hI hs hsettled⟩

end Dhtsim
