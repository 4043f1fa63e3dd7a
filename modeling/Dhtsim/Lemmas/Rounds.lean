import Dhtsim.Lemmas.Transfers
import Dhtsim.Theorems.Answered

/-!
# A round of ticks

Among inhabitants every node has its turn in every tick, and in its turn its queues get empty: its inbound queue when it has handled
what is there, and its outbound queue when the network has passed along what is there.
-/

namespace Dhtsim

open CallMachine KademliaNode AnsweredAux

/-- A round for the node after an epoch: the tick of that epoch goes on, or it is over and the node awaits the moment `now` of its
turn in the next one. -/
def Round {N : Nat} (now : Moment N → Prop) (i : Fin N) (epoch : Nat) (m : NetworkConfig N) : Prop :=
  ∃ μ, m.stack = μ.stack ∧ AnsweredAux.Orderly m.state μ ∧ m.state.inhabited i ∧
    (m.state.epoch.toNat = epoch ∨ m.state.epoch.toNat = epoch + 1 ∧ Awaits now i m.state μ)

namespace RoundsAux

variable {N : Nat} {Γ : Ctx} {config : Fin N → Config} {key : Fin N → KademliaKey} {offset : Fin N → Time} {limit : UInt32}
  {m m₁ m' : NetworkConfig N} {l : NetworkLabel N} {w w' : CentralizedNetwork N} {μ μ' : Moment N} {now : Moment N → Prop}
  {ch : NetworkChoice} {ran : List (NetworkCall N)} {i j : Fin N} {e : Nat} {es : List (Transfer N)}

/-- The moment after a step among inhabitants. -/
theorem orderly_step (hr : Run (networkProgram Γ N) (fun m l => calm m l = true) (startNetwork config key offset limit) m)
    (hstack : m.stack = μ.stack) (ho : AnsweredAux.Orderly m.state μ) (hl : calm m l = true)
    (hs : Step (networkProgram Γ N) m l m') :
    ∃ ch ran μ', m'.stack = μ'.stack ∧ AnsweredAux.Orderly m'.state μ' ∧ Proceeds Γ ch m.state μ ran m'.state μ' ∧
      Unhindered m.state ran ∧ ∀ x ∈ ran, x.keepsTime m.state = true := by
  obtain ⟨ch, ran, μ', hstack', hfits', htrace, hg⟩ := proceeds_of_step ho.fits hstack hs
  obtain ⟨hun, hkeeps⟩ := calm_ran hl hs htrace
  have hR' : ResidentState m' := residentState_of_run (fun m l => nobodyLeaves_of_calm) (hr.step hl hs.step_eq)
  refine ⟨ch, ran, μ', hstack', ⟨hfits', ?_, ?_, ?_⟩, hg, hun, hkeeps⟩
  · exact nodeTick_step hs hstack hstack' htrace hg ho.ticks
  · exact live_proceeds hg hun ho.live
  · exact fun i a b ha hb => (ResidentsAux.address_of_find? hR' ha).symm.trans (ResidentsAux.address_of_find? hR' hb)

theorem orderly_of_run (hr : Run (networkProgram Γ N) (fun m l => calm m l = true) (startNetwork config key offset limit) m) :
    ∃ μ, m.stack = μ.stack ∧ AnsweredAux.Orderly m.state μ := by
  refine hr.invariant (I := fun m => ∃ μ : Moment N, m.stack = μ.stack ∧ AnsweredAux.Orderly m.state μ)
    ⟨.between [], rfl, ?_, nodeTick_nil, fun i => rfl, fun i a b ha => ?_⟩ ?_
  · exact fun x hx => absurd hx List.not_mem_nil
  · cases ha
  · rintro m l m' hr ⟨μ, hstack, ho⟩ hl hs
    obtain ⟨ch, ran, μ', hstack', ho', -⟩ := orderly_step hr hstack ho hl hs
    exact ⟨μ', hstack', ho'⟩

/-- A round goes on as long as the node awaits its moment. -/
theorem round_step (hr : Run (networkProgram Γ N) (fun m l => calm m l = true) (startNetwork config key offset limit) m)
    (h : Round now i e m) (hl : calm m l = true) (hs : Step (networkProgram Γ N) m l m') (hfinish : ¬ now .finish)
    (hawaits : ∀ ch ran μ μ', m.stack = μ.stack → AnsweredAux.Orderly m.state μ → Awaits now i m.state μ →
      Proceeds Γ ch m.state μ ran m'.state μ' → Unhindered m.state ran → Awaits now i m'.state μ') : Round now i e m' := by
  obtain ⟨μ, hstack, ho, hi, hround⟩ := h
  obtain ⟨ch, ran, μ', hstack', ho', hg, hun, hkeeps⟩ := orderly_step hr hstack ho hl hs
  obtain ⟨a, ha⟩ := hi
  have hi' : m'.state.inhabited i := ⟨a, hg.find? ho.ticks hun.ne_remove ha⟩
  refine ⟨μ', hstack', ho', hi', ?_⟩
  by_cases hμ : μ = .finish
  · subst hμ
    obtain ⟨rfl, hw', rfl⟩ := hg.finish
    rcases hround with heq | ⟨-, hnow⟩
    · right
      rw [hw']
      have htime := toNat_epoch_succ (of_decide_eq_true (hkeeps _ List.mem_cons_self))
      exact ⟨htime.trans (congrArg (· + 1) heq), hw' ▸ hi', Or.inl not_false⟩
    · exact absurd hnow (not_awaits_finish hfinish)
  · rw [hg.epoch hμ]
    rcases hround with heq | ⟨heq, hnow⟩
    · exact Or.inl heq
    · exact Or.inr ⟨heq, hawaits ch ran μ μ' hstack ho hnow hg hun⟩

/-- In the turn of a node nothing is underway before the loop over its outbound messages. -/
theorem underwayFrom_ticking {a : UInt32} {calls : List (NetworkCall N)} (hμ : (Moment.ticking a j calls).Fits w) :
    underwayFrom i (Moment.ticking a j calls).stack = [] := by
  obtain ⟨-, hne, hcalls⟩ := hμ
  cases calls with
  | nil => exact absurd rfl hne
  | cons x calls =>
    refine TransfersAux.underwayFrom_of_top ?_
    rcases hcalls with heq | hturn
    · obtain ⟨rfl, -⟩ := List.cons.inj heq
      rfl
    · obtain ⟨k, c, rfl, hc⟩ := hturn x List.mem_cons_self
      cases c with
      | base b =>
        cases b with
        | recv msg => cases hc
        | _ => rfl
      | _ => rfl

/-- The round of a node begins where the node lives. -/
theorem round_start (hr : Run (networkProgram Γ N) (fun m l => calm m l = true) (startNetwork config key offset limit) m)
    (hi : m.state.inhabited i) : Round now i m.state.epoch.toNat m := by
  obtain ⟨μ, hstack, ho⟩ := orderly_of_run hr
  exact ⟨μ, hstack, ho, hi, Or.inl rfl⟩

theorem round_epoch_le (h : Round now i e m) : m.state.epoch.toNat ≤ e + 1 := by
  obtain ⟨μ, -, -, -, heq | ⟨heq, -⟩⟩ := h <;> omega

/-- A node that awaits the loops of its turn still does after a step, unless both its inbound queue is empty and nothing is underway
from another one. -/
theorem drains_step (hstack : m.stack = μ.stack) (ho : AnsweredAux.Orderly m.state μ) (h : Awaits (Leads drains j) j m.state μ)
    (hg : Proceeds Γ ch m.state μ ran m'.state μ') (hun : Unhindered m.state ran)
    (hne : (m.state.applications j).inqueue ≠ [] ∨ underwayFrom i m.stack ≠ []) : Awaits (Leads drains j) j m'.state μ' := by
  rcases hne with hqueue | hunderway
  · exact drains_proceeds h hg ho.ticks ho.live hun hqueue
  · refine h.proceeds hg ho.ticks hun.ne_remove (fun a => ?_) (fun hleads => ?_)
    · exact ⟨a, _, rfl, .tick m.state.epoch, rfl, Or.inl List.mem_cons_self⟩
    · obtain ⟨a, calls, rfl, -⟩ := hleads
      exact absurd (hstack ▸ underwayFrom_ticking ho.fits) hunderway

end RoundsAux

open RoundsAux

section Emptied

variable {N : Nat} {Γ : Ctx} {config : Fin N → Config} {key : Fin N → KademliaKey} {offset : Fin N → Time} {limit : UInt32}
  {ok : NetworkConfig N → NetworkLabel N → Prop} {m m₁ : NetworkConfig N} {i j : Fin N} {es : List (Transfer N)}

/-- By the end of the next tick the outbound queue of a node was empty once. -/
theorem outqueue_emptied (hok : ∀ m l, ok m l → calm m l = true)
    (h₁ : Run (networkProgram Γ N) ok (startNetwork config key offset limit) m₁)
    (h : Journal (networkProgram Γ N) ok transfers m₁ es m) (hi : m₁.state.inhabited i)
    (hlater : m₁.state.epoch.toNat + 2 ≤ m.state.epoch.toNat) :
    ∃ es₁ es₂ m₂, es = es₁ ++ es₂ ∧ Journal (networkProgram Γ N) ok transfers m₁ es₁ m₂ ∧
      ((m₂.state.applications i).outqueue = [] ∧ m₂.state.epoch.toNat ≤ m₁.state.epoch.toNat + 1) ∧
      Journal (networkProgram Γ N) ok transfers m₂ es₂ m := by
  refine (h.reaches (W := Round (Flushes i) i m₁.state.epoch.toNat) (round_start (h₁.mono hok) hi) ?_).resolve_left
    (fun hround => ?_)
  · intro m l m' hr hround hnot hl hs
    have hqueue : (m.state.applications i).outqueue ≠ [] := fun hnil => hnot ⟨hnil, round_epoch_le hround⟩
    exact round_step ((h₁.trans hr).mono hok) hround (hok m l hl) hs not_flushes_finish
      (fun ch ran μ μ' _ ho hawaits hg hun => flushes_proceeds hawaits hg ho.ticks hun (Or.inr hqueue))
  · have hle := round_epoch_le hround
    omega

/-- By the end of the next tick the inbound queue of a node was empty once, with nothing underway from the other node. -/
theorem inqueue_emptied (hok : ∀ m l, ok m l → calm m l = true)
    (h₁ : Run (networkProgram Γ N) ok (startNetwork config key offset limit) m₁)
    (h : Journal (networkProgram Γ N) ok transfers m₁ es m) (hj : m₁.state.inhabited j)
    (hlater : m₁.state.epoch.toNat + 2 ≤ m.state.epoch.toNat) (i : Fin N) :
    ∃ es₁ es₂ m₂, es = es₁ ++ es₂ ∧ Journal (networkProgram Γ N) ok transfers m₁ es₁ m₂ ∧
      ((m₂.state.applications j).inqueue = [] ∧ underwayFrom i m₂.stack = []) ∧
      Journal (networkProgram Γ N) ok transfers m₂ es₂ m := by
  refine (h.reaches (W := Round (Leads drains j) j m₁.state.epoch.toNat) (round_start (h₁.mono hok) hj) ?_).resolve_left
    (fun hround => ?_)
  · intro m l m' hr hround hnot hl hs
    have hne : (m.state.applications j).inqueue ≠ [] ∨ underwayFrom i m.stack ≠ [] := not_and_or.1 hnot
    exact round_step ((h₁.trans hr).mono hok) hround (hok m l hl) hs not_leads_finish
      (fun ch ran μ μ' hstack ho hawaits hg hun => drains_step hstack ho hawaits hg hun hne)
  · have hle := round_epoch_le hround
    omega

end Emptied

end Dhtsim
