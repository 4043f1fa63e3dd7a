import Dhtsim.Lemmas.Turns
import Dhtsim.Lemmas.Messages

/-!
# The loop over the outbound messages

What the loop does with the outbound queue of an inhabitant: it passes messages along in their order as long as they fit the
limit. At the first that does not, it stops and drops the message, if it is larger than the limit by itself, or puts it back.
-/

namespace Dhtsim

open CallMachine

/-- The data size of messages. -/
def bytes (ms : List (Message UInt32)) : Nat := (ms.map (fun m => m.data.length)).sum

@[simp] theorem bytes_nil : bytes [] = 0 := rfl

@[simp] theorem bytes_cons (m : Message UInt32) (ms : List (Message UInt32)) : bytes (m :: ms) = m.data.length + bytes ms := by
  simp [bytes]

@[simp] theorem bytes_append (ms ms' : List (Message UInt32)) : bytes (ms ++ ms') = bytes ms + bytes ms' := by
  simp [bytes]

/-- The message, but that a zero tag may have been replaced. -/
def Retagged (m m' : Message UInt32) : Prop := ∃ drawn, m' = m.tagged drawn

/-- A message that has a tag is sent again as it is. -/
theorem Retagged.refl (m : Message UInt32) : Retagged m m := ⟨m.tag, by unfold Message.tagged; split <;> rfl⟩

/-- The messages of the calls that pass one along. -/
def passed {N : Nat} (ran : List (NetworkCall N)) : List (Message UInt32) :=
  ran.flatMap (fun x => match x with | .passAlongMessage m => [m] | _ => [])

/-- What became of the messages that were in the outbound queue: they were passed along, they were dropped, or they are left. -/
structure Conserved (limit : Nat) (sent passedAlong queue : List (Message UInt32)) : Prop where
  within : bytes passedAlong ≤ limit
  split : ∃ dropped left, sent.Perm (passedAlong ++ dropped ++ left) ∧ (∀ m ∈ dropped, limit < m.data.length) ∧
    dropped.length ≤ 1 ∧ List.Forall₂ Retagged left queue

/-- The loop over the messages that were in the outbound queue of an inhabitant, those passed along so far, and the moment. -/
inductive Settling {N : Nat} (a : UInt32) (i : Fin N) (sent : List (Message UInt32)) (w : CentralizedNetwork N) :
    List (Message UInt32) → Moment N → Prop where
  | emptying {done : List (Message UInt32)} (hsent : sent = done ++ (w.applications i).outqueue)
      (hlimit : bytes done ≤ w.linkLimit.toNat) : Settling a i sent w done (.emptying a i (bytes done))
  | passing {done : List (Message UInt32)} {m : Message UInt32} (hsent : sent = done ++ m :: (w.applications i).outqueue)
      (hlimit : bytes done + m.data.length ≤ w.linkLimit.toNat) :
      Settling a i sent w done (.passing a i (bytes done + m.data.length) (.passAlongMessage m))
  | handing {done : List (Message UInt32)} {x : NetworkCall N} (hx : ∀ m, x ≠ .passAlongMessage m)
      (hsent : sent = done ++ (w.applications i).outqueue) (hlimit : bytes done ≤ w.linkLimit.toNat) :
      Settling a i sent w done (.passing a i (bytes done) x)
  | puttingBack {done : List (Message UInt32)} {m : Message UInt32} {x : NetworkCall N}
      (hx : x = .call i (putBack m) ∨ x = .app i (putBack m)) (hsent : sent = done ++ m :: (w.applications i).outqueue)
      (hlimit : bytes done ≤ w.linkLimit.toNat) : Settling a i sent w done (.puttingBack a i x)
  | settled {done : List (Message UInt32)} (h : Conserved w.linkLimit.toNat sent done (w.applications i).outqueue) :
      Settling a i sent w done (.looking (some a))

variable {N : Nat} {Γ : Ctx} {ch : NetworkChoice} {w w' : CentralizedNetwork N} {μ μ' : Moment N} {a : UInt32} {i : Fin N}
  {sent done : List (Message UInt32)} {ran : List (NetworkCall N)} {m m' : NetworkConfig N}

/-- What the network takes is the first message. -/
theorem unqueueOut_outqueue (n : KademliaNode) : n.unqueueOut.outqueue = n.outqueue.tail := rfl

/-- A message that comes in leaves the outbound queues as they are. -/
theorem outqueue_of_recv (w : CentralizedNetwork N) (i j : Fin N) (m : Message UInt32) :
    ((w.setApplication j ((w.applications j).setBase ((w.applications j).toBaseApplication.queueIn m))).applications i).outqueue =
      (w.applications i).outqueue := by
  by_cases hj : i = j
  · subst hj
    rw [CentralizedNetwork.applications_setApplication_self, BaseApplication.queueIn_eq]
    rfl
  · rw [CentralizedNetwork.applications_setApplication_of_ne w hj]

theorem forall₂_retagged_refl (ms : List (Message UInt32)) : List.Forall₂ Retagged ms ms :=
  List.forall₂_same.2 (fun m _ => Retagged.refl m)

/-- The loop goes on until it is settled what became of the messages. -/
theorem Settling.proceeds (h : Settling a i sent w done μ) (hlive : (w.applications i).dead = false)
    (hbound : sent.length ≤ outqueueLimit) (hμ : μ ≠ .looking (some a)) (hg : Proceeds Γ ch w μ ran w' μ') :
    Settling a i sent w' (done ++ passed ran) μ' := by
  cases h with
  | emptying hsent hlimit =>
    have hstays : done ++ passed [NetworkCall.outbound i (bytes done)] = done := List.append_nil done
    have hqueue : ((w.setApplication i (w.applications i).unqueueOut).applications i).outqueue =
        (w.applications i).outqueue.tail := by
      rw [CentralizedNetwork.applications_setApplication_self, unqueueOut_outqueue]
    cases hg with
    | empty hq =>
      rw [hstays]
      refine .settled ⟨hlimit, [], [], ?_, by simp, by simp, ?_⟩
      · simp [hsent, hq]
      · rw [hqueue, hq]
        exact .nil
    | @drops _ _ _ m rest hq hsize =>
      rw [hstays]
      refine .settled ⟨hlimit, [m], rest, ?_, fun x hx => List.mem_singleton.1 hx ▸ hsize, by simp, ?_⟩
      · simp [hsent, hq]
      · rw [hqueue, hq]
        exact forall₂_retagged_refl rest
    | @exceeds _ _ _ m rest hq hsize hexceeds =>
      rw [hstays]
      refine .puttingBack (Or.inl rfl) ?_ hlimit
      rw [hqueue, hsent, hq, List.tail_cons]
    | @passes _ _ _ m rest hq hfits =>
      rw [hstays]
      refine .passing ?_ hfits
      rw [hqueue, hsent, hq, List.tail_cons]
  | @passing m hsent hlimit =>
    have hmore : bytes done + m.data.length = bytes (done ++ [m]) := by simp
    rw [hmore] at hg hlimit
    have hsent' : sent = (done ++ [m]) ++ (w.applications i).outqueue := by simp [hsent]
    cases hg with
    | nobody hf => exact .emptying hsent' hlimit
    | delivers hf => exact .handing (by simp) hsent' hlimit
  | handing hx hsent hlimit =>
    cases hg with
    | nobody hf => exact absurd rfl (hx _)
    | delivers hf => exact absurd rfl (hx _)
    | @hands _ _ j _ m =>
      have hstays : done ++ passed [NetworkCall.call j (.base (.recv m))] = done := List.append_nil done
      rw [hstays]
      exact .handing (by simp) hsent hlimit
    | @takes _ _ j _ m =>
      have hstays : done ++ passed [NetworkCall.app j (.base (.recv m))] = done := List.append_nil done
      rw [hstays]
      refine .emptying ?_ hlimit
      rw [outqueue_of_recv]
      exact hsent
  | @puttingBack m x hx hsent hlimit =>
    cases hg with
    | @handsBack _ _ m' =>
      have hstays : done ++ passed [NetworkCall.call i (putBack m')] = done := List.append_nil done
      rw [hstays]
      obtain rfl : m' = m := by
        rcases hx with hx | hx
        · simpa [putBack] using hx
        · cases hx
      exact .puttingBack (Or.inr rfl) hsent hlimit
    | @sends _ _ m' =>
      have hstays : done ++ passed [NetworkCall.app i (putBack m')] = done := List.append_nil done
      rw [hstays]
      obtain rfl : m' = m := by
        rcases hx with hx | hx
        · cases hx
        · simpa [putBack] using hx
      -- The queue is shorter than when the loop began, so there is room for the message.
      have hroom : (w.applications i).outqueue.length < outqueueLimit := by
        rw [hsent, List.length_append, List.length_cons] at hbound
        omega
      refine .settled ⟨hlimit, [], (w.applications i).outqueue ++ [m'], ?_, by simp, by simp, ?_⟩
      · rw [hsent, List.append_nil]
        exact List.Perm.append_left _ (List.perm_append_singleton m' _).symm
      · have hqueue : ((w.applications i).setBase (BaseApplication.send ch.tag m' .empty 16 0
            (w.applications i).toBaseApplication).1).outqueue = (w.applications i).outqueue ++ [m'.tagged ch.tag] := by
          refine (BaseApplication.send_outqueue hlive ch.tag m' .empty 16 0).trans ?_
          rw [if_pos hroom]
        rw [CentralizedNetwork.applications_setApplication_self, hqueue]
        exact List.rel_append (forall₂_retagged_refl _) (.cons ⟨ch.tag, rfl⟩ .nil)
  | settled h => exact absurd rfl hμ

/-- A bound for the steps that the loop still makes. -/
def Moment.togo (w : CentralizedNetwork N) : Moment N → Nat
  | .emptying _ i _ => 4 * (w.applications i).outqueue.length + 1
  | .passing _ i _ (.passAlongMessage _) => 4 * (w.applications i).outqueue.length + 4
  | .passing _ i _ (.call _ _) => 4 * (w.applications i).outqueue.length + 3
  | .passing _ i _ _ => 4 * (w.applications i).outqueue.length + 2
  | .puttingBack _ _ (.call _ _) => 2
  | .puttingBack _ _ _ => 1
  | _ => 0

/-- Each step of the loop leaves less to do. -/
theorem Settling.togo_lt (h : Settling a i sent w done μ) (hμ : μ ≠ .looking (some a)) (hg : Proceeds Γ ch w μ ran w' μ') :
    μ'.togo w' < μ.togo w := by
  cases h with
  | emptying =>
    cases hg with
    | empty | drops => exact Nat.succ_pos _
    | exceeds hq =>
      simp only [Moment.togo, hq, List.length_cons]
      omega
    | passes hq =>
      simp only [Moment.togo, CentralizedNetwork.applications_setApplication_self, unqueueOut_outqueue, hq, List.length_tail,
        List.length_cons]
      omega
  | passing =>
    cases hg with
    | nobody | delivers => simp only [Moment.togo]; omega
  | handing hx =>
    cases hg with
    | nobody | delivers => exact absurd rfl (hx _)
    | hands => simp only [Moment.togo]; omega
    | takes =>
      simp only [Moment.togo, outqueue_of_recv]
      omega
  | puttingBack hx =>
    cases hg with
    | handsBack => simp only [Moment.togo]; omega
    | sends => simp only [Moment.togo]; omega
  | settled => exact absurd rfl hμ

/-- The next step of the loop is defined. -/
theorem Settling.exists_step (hstack : m.stack = μ.stack) (hfits : μ.Fits m.state) (h : Settling a i sent m.state done μ)
    (hμ : μ ≠ .looking (some a)) (ch : NetworkChoice) : ∃ m', step (networkProgram Γ N) m (.run ch) = some m' := by
  have hrun : ∀ {x rest} {p : CentralizedNetwork N × List (NetworkCall N)}, m.stack = x :: rest →
      x.isUserCode = false → CentralizedNetwork.exec Γ ch x m.state = some p →
      ∃ m', step (networkProgram Γ N) m (.run ch) = some m' := by
    intro x rest p hx hw he
    exact ⟨⟨p.1, p.2 ++ rest, (x, ch) :: m.trace⟩, by simp [step, networkProgram, hx, hw, he]⟩
  cases h with
  | emptying => exact hrun hstack rfl rfl
  | passing => exact hrun hstack rfl rfl
  | handing hx =>
    obtain ⟨-, ⟨m, rfl⟩ | ⟨m, j, -, rfl | rfl⟩⟩ := hfits
    · exact absurd rfl (hx m)
    · exact hrun hstack rfl rfl
    · exact hrun hstack rfl rfl
  | puttingBack hx =>
    rcases hx with rfl | rfl
    · exact hrun hstack rfl rfl
    · exact hrun hstack rfl (exec_putBack i _)
  | settled => exact absurd rfl hμ

/-- The loop is part of a tick. -/
theorem Settling.within (h : Settling a i sent w done μ) : μ.within := by
  cases h <;> trivial

/-- The loop runs, with a bound for its steps. -/
def Looping (a : UInt32) (i : Fin N) (sent : List (Message UInt32)) (n : Nat) (m : NetworkConfig N) : Prop :=
  ∃ done μ, m.stack = Moment.stack μ ∧ μ.Fits m.state ∧ Settling a i sent m.state done μ ∧
    (m.state.applications i).dead = false ∧ n = μ.togo m.state

/-- The loop ends. -/
theorem Looping.ends {n : Nat} (h : Looping a i sent n m) (hbound : sent.length ≤ outqueueLimit) :
    ∃ n' m', Run (networkProgram Γ N) busy m m' ∧ Looping a i sent n' m' ∧ m'.stack = [.inhabitant (some a), .endTick] := by
  refine Run.exists_of_variant (D := fun m => m.stack = [.inhabitant (some a), .endTick]) ?_ h
  rintro n m₁ ⟨done, μ, hstack, hfits, h, hlive, rfl⟩ hdone
  have hμ : μ ≠ .looking (some a) := by
    rintro rfl
    exact hdone hstack
  obtain ⟨m₂, hs⟩ := h.exists_step (Γ := Γ) hstack hfits hμ ⟨⟨0, 0, false, 0⟩, []⟩
  obtain ⟨ch, ran, μ₂, hstack₂, hfits₂, -, hg⟩ := proceeds_of_step hfits hstack (step_of_eq_some hs)
  have hlive₂ : (m₂.state.applications i).dead = false := (hg.dead hfits h.within i).trans hlive
  refine ⟨_, m₂, μ₂.togo m₂.state, fun hempty => ?_, hs, ⟨_, μ₂, hstack₂, hfits₂, h.proceeds hlive hbound hμ hg, hlive₂, rfl⟩,
    h.togo_lt hμ hg⟩
  obtain rfl : μ = .between [] := eq_between_of_nil (hstack.symm.trans hempty)
  exact h.within

end Dhtsim
