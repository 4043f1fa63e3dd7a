import Dhtsim.Lemmas.Deliveries

/-!
# When a message is handled

A message that a node has sent waits until the node has had its turn, and then until its receiver has drained its inbound queue:
in the same tick if the receiver's address comes after that of the sender, in the next one otherwise.
-/

namespace Dhtsim

open CallMachine KademliaNode

variable {N : Nat}

/-- What the node does in its turn at the moment that `now` tells it will have done by tick `d`: it still does it in this tick,
or there are more to come. -/
def DoneBy (now : Moment N → Prop) (i : Fin N) (w : CentralizedNetwork N) (μ : Moment N) (d : Nat) : Prop :=
  w.epoch.toNat + 1 ≤ d ∨ (Awaits now i w μ ∧ w.epoch.toNat ≤ d)

/-- A message on its way from node `i` to node `j`, which is sent by tick `f` and handled by tick `d`. -/
inductive Underway (w : CentralizedNetwork N) (μ : Moment N) (msg : Message UInt32) (i j : Fin N) (f d : Nat) : Prop where
  | queued (hmem : msg ∈ (w.applications i).outqueue) (hby : DoneBy (Flushes i) i w μ f)
  | passing {a : UInt32} {total : Nat} {x : NetworkCall N} (hμ : μ = .passing a i total x)
      (hx : x = .passAlongMessage msg ∨ x = .call j (.base (.recv msg)) ∨ x = .app j (.base (.recv msg)))
      (hby : w.epoch.toNat ≤ f)
  | arrived (hmem : msg ∈ (w.applications j).inqueue) (hby : DoneBy (Leads drains j) j w μ d)

variable {Γ : Ctx} {ch : NetworkChoice} {w w' : CentralizedNetwork N} {μ μ' : Moment N} {ran : List (NetworkCall N)}
  {i j : Fin N} {c : Call} {msg : Message UInt32} {now : Moment N → Prop} {f d : Nat}

theorem DoneBy.le (h : DoneBy now i w μ d) : w.epoch.toNat ≤ d := by
  rcases h with h | ⟨-, h⟩
  · omega
  · exact h

/-- Until the end of the tick there is nothing new to be done. -/
theorem DoneBy.proceeds (h : DoneBy now i w μ d) (hg : Proceeds Γ ch w μ ran w' μ') (hμ : μ ≠ .finish)
    (hnext : Awaits now i w μ → Awaits now i w' μ') : DoneBy now i w' μ' d := by
  unfold DoneBy at h ⊢
  rw [hg.epoch hμ]
  exact h.imp_right (fun h => ⟨hnext h.1, h.2⟩)

/-- What is not done when the tick ends is done in the next one. -/
theorem DoneBy.finish (h : DoneBy now i w .finish d) (hi : w.inhabited i) (hnow : ¬ now .finish)
    (hroom : w.epoch.toNat + 1 < 2 ^ 64) : DoneBy now i { w with epoch := w.epoch + 1 } (.between []) d := by
  refine Or.inr ⟨⟨hi, Or.inl not_false⟩, ?_⟩
  rcases h with h | ⟨h, -⟩
  · rw [toNat_epoch_succ hroom]
    exact h
  · exact absurd h (not_awaits_finish hnow)

/-- What only the node itself does it does in its turn, or between two ticks. -/
theorem flushes_of_own (hμ : μ.Fits w) (hi : w.inhabited i) (hmem : .app i c ∈ μ.calls) (hown : c.runsInTurn false = false) :
    Awaits (Flushes i) i w μ := by
  refine ⟨hi, ?_⟩
  cases μ with
  | between calls => exact Or.inl not_false
  | ticking a k calls =>
    obtain rfl : i = k := turn_eq hμ hmem hown
    exact Or.inr (Or.inr ⟨a, Or.inl ⟨calls, rfl⟩⟩)
  | _ => cases hmem

/-- A message that is passed along is put into the inbound queue of its receiver, which drains it in this tick if its turn is to
come. -/
theorem underway_of_passing {a : UInt32} {total : Nat} {x : NetworkCall N} (hg : Proceeds Γ ch w (.passing a i total x) ran w' μ')
    (hok : Unhindered w ran) (hj : w.inhabitants.find? msg.destination = some j)
    (hx : x = .passAlongMessage msg ∨ x = .call j (.base (.recv msg)) ∨ x = .app j (.base (.recv msg)))
    (hby : w.epoch.toNat ≤ f) (hfd : f < d ∨ (f ≤ d ∧ a < msg.destination)) : Underway w' μ' msg i j f d := by
  rcases hx with rfl | rfl | rfl
  · cases hg with
    | nobody hf =>
      rw [hf] at hj
      cases hj
    | delivers hf =>
      rw [hf] at hj
      cases hj
      exact .passing rfl (Or.inr (Or.inl rfl)) hby
  · cases hg with
    | hands => exact .passing rfl (Or.inr (Or.inr rfl)) hby
  · cases hg with
    | takes =>
      refine .arrived (inqueue_recv hok) ?_
      rcases hfd with hfd | ⟨hfd, hlt⟩
      · exact Or.inl (show w.epoch.toNat + 1 ≤ d by omega)
      · refine Or.inr ⟨⟨⟨_, hj⟩, Or.inr (Or.inl ⟨msg.destination, hj, hlt⟩)⟩, ?_⟩
        exact le_trans hby hfd

/-- A message on its way goes on, until its receiver handles it in time. -/
theorem Underway.proceeds (h : Underway w μ msg i j f d) (hg : Proceeds Γ ch w μ ran w' μ') (hne : μ ≠ .finish) (hμ : μ.Fits w)
    (htick : NodeTick w μ.calls) (hlive : ∀ i, (w.applications i).dead = false) (hok : Unhindered w ran)
    (hj : w.inhabitants.find? msg.destination = some j)
    (hfd : ∀ a, w.inhabitants.find? a = some i → f < d ∨ (f ≤ d ∧ a < msg.destination)) :
    Underway w' μ' msg i j f d ∨ (.app j (.base (.handleMessage msg)) ∈ μ'.calls ∧ w'.epoch.toNat ≤ d) := by
  cases h with
  | queued hmem hby =>
    left
    rcases queued_proceeds hg htick hok hmem with hmem' | ⟨-, a, total, hpassing⟩
    · refine .queued hmem' (hby.proceeds hg hne (fun h => ?_))
      exact flushes_proceeds h hg htick hok (Or.inr (List.ne_nil_of_mem hmem))
    · refine .passing hpassing (Or.inl rfl) ?_
      rw [hg.epoch hne]
      exact hby.le
  | passing hat hx hby =>
    subst hat
    exact Or.inl (underway_of_passing hg hok hj hx hby (hfd _ hμ.1))
  | arrived hmem hby =>
    rcases inbound_proceeds hg hmem with hmem' | hmem'
    · refine Or.inl (.arrived hmem' (hby.proceeds hg hne (fun h => ?_)))
      exact drains_proceeds h hg htick hlive hok (List.ne_nil_of_mem hmem)
    · refine Or.inr ⟨hmem', ?_⟩
      rw [hg.epoch hne]
      exact hby.le

/-- A message that is on its way when a tick ends goes on in the next one. -/
theorem Underway.finish (h : Underway w .finish msg i j f d) (hi : w.inhabited i) (hj : w.inhabited j)
    (hroom : w.epoch.toNat + 1 < 2 ^ 64) : Underway { w with epoch := w.epoch + 1 } (.between []) msg i j f d := by
  cases h with
  | queued hmem hby => exact .queued hmem (hby.finish hi not_flushes_finish hroom)
  | passing hat => cases hat
  | arrived hmem hby => exact .arrived hmem (hby.finish hj not_leads_finish hroom)

end Dhtsim
