import Dhtsim.Lib.CallMachine

/-!
# Contracts of calls

A program is verified one body at a time. The contract of a call says what it relies on, and how the state when it has returned,
with all the calls that it made, is related to the state before it. A body keeps the contract of its call if the calls it makes
may be made one after the other, as their contracts tell, and lead to what the contract promises. In every run of such a program
a call that is about to run finds what it relies on.
-/

namespace CallMachine

variable {σ κ ρ : Type}

/-- What each call relies on, and what it has done when it returns. -/
structure Contract (σ κ : Type) where
  pre : κ → σ → Prop
  post : κ → σ → σ → Prop

namespace Contract

/-- The calls may be made one after the other, and `Q` holds when they have returned. -/
def Leads (C : Contract σ κ) : List κ → (σ → Prop) → σ → Prop
  | [], Q, s => Q s
  | c :: cs, Q, s => C.pre c s ∧ ∀ s', C.post c s s' → C.Leads cs Q s'

variable {C : Contract σ κ} {Q Q' : σ → Prop} {s : σ} {cs ds : List κ}

theorem Leads.mono (h : C.Leads cs Q s) (hQ : ∀ s, Q s → Q' s) : C.Leads cs Q' s := by
  induction cs generalizing s with
  | nil => exact hQ s h
  | cons c cs ih => exact ⟨h.1, fun s' hs' => ih (h.2 s' hs')⟩

/-- Calls after calls: these lead to where those may be made. -/
theorem leads_append : C.Leads (cs ++ ds) Q s ↔ C.Leads cs (C.Leads ds Q) s := by
  induction cs generalizing s with
  | nil => exact Iff.rfl
  | cons c cs ih => exact and_congr_right (fun _ => forall₂_congr (fun _ _ => ih))

/-- Calls that rely on what all of them keep may be made in any order. -/
theorem leads_of_kept {I : σ → Prop} (hpre : ∀ c ∈ cs, ∀ s, I s → C.pre c s)
    (hpost : ∀ c ∈ cs, ∀ s s', I s → C.post c s s' → I s') (hQ : ∀ s, I s → Q s) (h : I s) : C.Leads cs Q s := by
  induction cs generalizing s with
  | nil => exact hQ s h
  | cons c cs ih =>
    refine ⟨hpre c List.mem_cons_self s h, fun s' hs' => ?_⟩
    exact ih (fun x hx => hpre x (List.mem_cons_of_mem _ hx)) (fun x hx => hpost x (List.mem_cons_of_mem _ hx))
      (hpost c List.mem_cons_self s s' h hs')

end Contract

/-- A program keeps the contracts of its calls: every body does, what comes in may come in, and outside code that runs relies on
nothing that what it calls could spoil. -/
structure Keeps (P : Program σ κ ρ) (ok : Configuration σ κ ρ → Label κ ρ → Prop) (C : Contract σ κ) (Q : σ → Prop) : Prop where
  body : ∀ r c rest s tr s' cs, ok ⟨s, c :: rest, tr⟩ (.run r) → C.pre c s → P.exec r c s = some (s', cs) →
    C.Leads cs (C.post c s) s'
  event : ∀ c s, P.event c = true → Q s → C.Leads [c] Q s
  reentry : ∀ c f s, P.waits f = true → P.reentry c = true → C.pre f s →
    C.Leads [c, f] (C.post f s) s
  leave : ∀ f s, P.waits f = true → C.pre f s → C.post f s s

/-- In a program that keeps its contracts, the calls that wait lead to what the first calls were to lead to. -/
theorem Run.leads_to {P : Program σ κ ρ} {ok : Configuration σ κ ρ → Label κ ρ → Prop} {m₀ m : Configuration σ κ ρ}
    {C : Contract σ κ} {Q : σ → Prop} (h : Run P ok m₀ m) (hP : Keeps P ok C Q) (h₀ : C.Leads m₀.stack Q m₀.state) :
    C.Leads m.stack Q m.state := by
  refine h.invariant (I := fun m => C.Leads m.stack Q m.state) h₀ ?_
  rintro m l m' - hI hok hs
  cases hs with
  | run hw he => exact Contract.leads_append.2 ((hP.body _ _ _ _ _ _ _ hok hI.1 he).mono hI.2)
  | event hc => exact hP.event _ _ hc hI
  | @reentry c f rest s tr hf hc =>
    change C.Leads ([c, f] ++ rest) Q s
    exact Contract.leads_append.2 ((hP.reentry _ _ _ hf hc hI.1).mono hI.2)
  | leave hf => exact hI.2 _ (hP.leave _ _ hf hI.1)

/-- A call that is about to run finds what it relies on. -/
theorem Run.pre_of_stack {P : Program σ κ ρ} {ok : Configuration σ κ ρ → Label κ ρ → Prop} {m₀ m : Configuration σ κ ρ}
    {C : Contract σ κ} {Q : σ → Prop} {c : κ} {rest : List κ} (h : Run P ok m₀ m) (hP : Keeps P ok C Q)
    (h₀ : C.Leads m₀.stack Q m₀.state) (hc : m.stack = c :: rest) : C.pre c m.state := by
  have hleads := h.leads_to hP h₀
  rw [hc] at hleads
  exact hleads.1

end CallMachine
