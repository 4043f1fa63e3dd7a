import Mathlib.Algebra.GroupWithZero.Nat
import Mathlib.Data.List.Basic

/-!
# Programs that call and are called back

A single-threaded program whose functions call one another and run code that was handed to it from outside. The body of a
function is one step: it updates the state and leaves the calls it makes, which run in order before anything that was
already waiting. Some calls stand for code the program does not know: while one is on top of the stack, that code may
call into the program (`enter`) any number of times before it returns (`leave`). With an empty stack the program waits for
its next event. A step that is undefined (`exec` returns `none`) ends the run.
-/

namespace CallMachine

/-- What a program is: the effect of a call, the calls that stand for outside code, the calls that may come in when nothing
is running, and those that outside code may make. -/
structure Program (σ κ ρ : Type) where
  exec : ρ → κ → σ → Option (σ × List κ)
  waits : κ → Bool
  event : κ → Bool
  reentry : κ → Bool

/-- A configuration: the state, the calls still to run, and the calls that ran, the last one first, each with the choices
made in it. -/
structure Configuration (σ κ ρ : Type) where
  state : σ
  stack : List κ
  trace : List (κ × ρ)

/-- What happens next: the call on top runs, a call comes in, or outside code returns. -/
inductive Label (κ ρ : Type) where
  | run (r : ρ)
  | enter (c : κ)
  | leave

variable {σ κ ρ : Type}

/-- One step of a program. -/
def step (P : Program σ κ ρ) (m : Configuration σ κ ρ) : Label κ ρ → Option (Configuration σ κ ρ)
  | .run r =>
    match m.stack with
    | [] => none
    | c :: rest =>
      if P.waits c then none
      else (P.exec r c m.state).map (fun p => ⟨p.1, p.2 ++ rest, (c, r) :: m.trace⟩)
  | .enter c =>
    match m.stack with
    | [] => if P.event c then some ⟨m.state, [c], m.trace⟩ else none
    | f :: rest => if P.waits f && P.reentry c then some ⟨m.state, c :: f :: rest, m.trace⟩ else none
  | .leave =>
    match m.stack with
    | [] => none
    | f :: rest => if P.waits f then some ⟨m.state, rest, m.trace⟩ else none

/-- The steps of a program, one constructor for each way to make one. -/
inductive Step (P : Program σ κ ρ) : Configuration σ κ ρ → Label κ ρ → Configuration σ κ ρ → Prop where
  | run {r c rest s tr s' cs} (hw : P.waits c = false) (he : P.exec r c s = some (s', cs)) :
      Step P ⟨s, c :: rest, tr⟩ (.run r) ⟨s', cs ++ rest, (c, r) :: tr⟩
  | event {c s tr} (hc : P.event c = true) : Step P ⟨s, [], tr⟩ (.enter c) ⟨s, [c], tr⟩
  | reentry {c f rest s tr} (hf : P.waits f = true) (hc : P.reentry c = true) :
      Step P ⟨s, f :: rest, tr⟩ (.enter c) ⟨s, c :: f :: rest, tr⟩
  | leave {f rest s tr} (hf : P.waits f = true) : Step P ⟨s, f :: rest, tr⟩ .leave ⟨s, rest, tr⟩

/-- A step is made in one of the four ways. -/
theorem step_of_eq_some {P : Program σ κ ρ} {m m' : Configuration σ κ ρ} {l : Label κ ρ} (h : step P m l = some m') :
    Step P m l m' := by
  obtain ⟨s, stack, tr⟩ := m
  cases l with
  | run r =>
    cases stack with
    | nil => cases h
    | cons c rest =>
      simp only [step] at h
      split_ifs at h with hw
      obtain ⟨⟨s', cs⟩, he, rfl⟩ := Option.map_eq_some_iff.1 h
      exact .run (by simpa using hw) he
  | enter c =>
    cases stack with
    | nil =>
      simp only [step, Option.ite_none_right_eq_some, Option.some.injEq] at h
      obtain ⟨hc, rfl⟩ := h
      exact .event hc
    | cons f rest =>
      simp only [step, Option.ite_none_right_eq_some, Option.some.injEq, Bool.and_eq_true] at h
      obtain ⟨⟨hf, hc⟩, rfl⟩ := h
      exact .reentry hf hc
  | leave =>
    cases stack with
    | nil => cases h
    | cons f rest =>
      simp only [step, Option.ite_none_right_eq_some, Option.some.injEq] at h
      obtain ⟨hf, rfl⟩ := h
      exact .leave hf

theorem Step.step_eq {P : Program σ κ ρ} {m m' : Configuration σ κ ρ} {l : Label κ ρ} (h : Step P m l m') :
    step P m l = some m' := by
  cases h with
  | run hw he => simp [step, hw, he]
  | event hc => simp [step, hc]
  | reentry hf hc => simp [step, hf, hc]
  | leave hf => simp [step, hf]

/-- A step that runs no call and leaves one more on the stack lets that one come in. -/
theorem Step.enter_of_stack {P : Program σ κ ρ} {m m' : Configuration σ κ ρ} {l : Label κ ρ} {c : κ} (h : Step P m l m')
    (htrace : m'.trace = m.trace) (hstack : m'.stack = c :: m.stack) : l = .enter c := by
  cases h with
  | run hw he => simp at htrace
  | event hc => rw [(List.cons.inj hstack).1]
  | reentry hf hc => rw [(List.cons.inj hstack).1]
  | leave hf => exact absurd (congrArg List.length hstack) (by simp; omega)

/-- What comes in is an event, or outside code calls it. -/
theorem Step.enters {P : Program σ κ ρ} {m m' : Configuration σ κ ρ} {c : κ} (h : Step P m (.enter c) m') :
    P.event c = true ∨ P.reentry c = true := by
  cases h with
  | event hc => exact Or.inl hc
  | reentry hf hc => exact Or.inr hc

/-- The configurations a run leads to from `m₀`, when every step of it satisfies `ok`. -/
inductive Run (P : Program σ κ ρ) (ok : Configuration σ κ ρ → Label κ ρ → Prop) (m₀ : Configuration σ κ ρ) :
    Configuration σ κ ρ → Prop where
  | refl : Run P ok m₀ m₀
  | step {m m' : Configuration σ κ ρ} {l : Label κ ρ} : Run P ok m₀ m → ok m l → step P m l = some m' → Run P ok m₀ m'

/-- What the calls that ran and the calls that wait count for. -/
def tally {α : Type} (w : κ → List α) (m : Configuration σ κ ρ) : List α :=
  m.trace.flatMap (fun e => w e.1) ++ m.stack.flatMap w

/-- A call that runs goes from the stack to the trace; only the calls it makes are new. -/
theorem tally_run {α : Type} (w : κ → List α) {s s' : σ} {c : κ} {cs rest : List κ} {tr : List (κ × ρ)} {r : ρ} :
    (tally w ⟨s', cs ++ rest, (c, r) :: tr⟩).Perm (cs.flatMap w ++ tally w ⟨s, c :: rest, tr⟩) := by
  simp only [tally, List.flatMap_cons, List.flatMap_append]
  refine (List.perm_append_comm_assoc _ _ _).trans (List.Perm.append_left _ ?_)
  rw [List.append_assoc]
  exact List.perm_append_comm_assoc _ _ _

/-- The calls that ran between two configurations of a run, the last one first, each with its choices. -/
def since (m₀ m : Configuration σ κ ρ) : List (κ × ρ) := m.trace.take (m.trace.length - m₀.trace.length)

@[simp] theorem since_self (m : Configuration σ κ ρ) : since m m = [] := by simp [since]

/-- A call that runs is the last one since. -/
theorem since_cons {m₀ : Configuration σ κ ρ} {s s' : σ} {l l' : List κ} {tr : List (κ × ρ)} {e : κ × ρ}
    (h : m₀.trace <:+ tr) : since m₀ ⟨s', l', e :: tr⟩ = e :: since m₀ ⟨s, l, tr⟩ := by
  unfold since
  simp only [List.length_cons]
  rw [Nat.succ_sub h.length_le, List.take_succ_cons]

namespace Run

variable {P : Program σ κ ρ} {ok : Configuration σ κ ρ → Label κ ρ → Prop} {m₀ m m' : Configuration σ κ ρ}

theorem trans (h : Run P ok m₀ m) (h' : Run P ok m m') : Run P ok m₀ m' := by
  induction h' with
  | refl => exact h
  | step _ ho hs ih => exact ih.step ho hs

/-- A run whose steps satisfy more satisfies less. -/
theorem mono {ok' : Configuration σ κ ρ → Label κ ρ → Prop} (hok : ∀ m l, ok m l → ok' m l) (h : Run P ok m₀ m) :
    Run P ok' m₀ m := by
  induction h with
  | refl => exact .refl
  | step _ ho hs ih => exact ih.step (hok _ _ ho) hs

/-- What ran before is no part of what happens next. -/
theorem append_trace {ok' : Configuration σ κ ρ → Label κ ρ → Prop} {tr : List (κ × ρ)}
    (hok : ∀ m l, ok m l → ok' ⟨m.state, m.stack, m.trace ++ tr⟩ l) (h : Run P ok m₀ m) :
    Run P ok' ⟨m₀.state, m₀.stack, m₀.trace ++ tr⟩ ⟨m.state, m.stack, m.trace ++ tr⟩ := by
  induction h with
  | refl => exact .refl
  | step _ ho hs ih =>
    refine ih.step (hok _ _ ho) ?_
    cases step_of_eq_some hs with
    | run hw he => exact (Step.run hw he).step_eq
    | event hc => exact (Step.event hc).step_eq
    | reentry hf hc => exact (Step.reentry hf hc).step_eq
    | leave hf => exact (Step.leave hf).step_eq

/-- Every configuration that a step of a run starts from leads to where the run ends. -/
theorem leads (h : Run P ok m₀ m) : Run P (fun m₁ l => ok m₁ l ∧ Run P ok m₁ m) m₀ m := by
  induction h with
  | refl => exact .refl
  | step _ ho hs ih => exact (ih.mono (fun _ _ h => ⟨h.1, h.2.step ho hs⟩)).step ⟨ho, Run.refl.step ho hs⟩ hs

/-- A run that leads somewhere else begins with a step. -/
theorem head (h : Run P ok m₀ m) (hne : m ≠ m₀) :
    ∃ l m₁, ok m₀ l ∧ CallMachine.step P m₀ l = some m₁ ∧ Run P ok m₁ m := by
  induction h with
  | refl => exact absurd rfl hne
  | @step m₂ m₃ l hr ho hs ih =>
    by_cases heq : m₂ = m₀
    · subst heq
      exact ⟨l, m₃, ho, hs, .refl⟩
    · obtain ⟨l', m₁, ho', hs', hr'⟩ := ih heq
      exact ⟨l', m₁, ho', hs', hr'.step ho hs⟩

/-- The call on top runs before anything else happens. -/
theorem head_run {s : σ} {c : κ} {rest : List κ} {tr : List (κ × ρ)} (h : Run P ok ⟨s, c :: rest, tr⟩ m)
    (hw : P.waits c = false) (hne : m.stack ≠ c :: rest) :
    ∃ r p, P.exec r c s = some p ∧ Run P ok ⟨p.1, p.2 ++ rest, (c, r) :: tr⟩ m := by
  obtain ⟨l, m₁, -, hs, hr⟩ := h.head (by rintro rfl; exact hne rfl)
  cases step_of_eq_some hs with
  | run _ he => exact ⟨_, _, he, hr⟩
  | reentry hf =>
    rw [hw] at hf
    cases hf
  | leave hf =>
    rw [hw] at hf
    cases hf

/-- What holds first and is kept by every step holds throughout the run. The premise may use that the configuration the
step starts from was reached. -/
theorem invariant {I : Configuration σ κ ρ → Prop} (h : Run P ok m₀ m) (h₀ : I m₀)
    (hstep : ∀ m l m', Run P ok m₀ m → I m → ok m l → Step P m l m' → I m') : I m := by
  induction h with
  | refl => exact h₀
  | step hr ho hs ih => exact hstep _ _ _ hr ih ho (step_of_eq_some hs)

/-- The rule for an invariant whose proof looks back at earlier points of the run: it holds at all of them, as every step of the
run starts where it holds. -/
theorem invariant_throughout {I : Configuration σ κ ρ → Prop} (h : Run P ok m₀ m) (h₀ : I m₀)
    (hstep : ∀ m l m', Run P (fun m l => ok m l ∧ I m) m₀ m → I m → ok m l → Step P m l m' → I m') :
    Run P (fun m l => ok m l ∧ I m) m₀ m ∧ I m := by
  induction h with
  | refl => exact ⟨.refl, h₀⟩
  | step _ ho hs ih => exact ⟨ih.1.step ⟨ho, ih.2⟩ hs, hstep _ _ _ ih.1 ih.2 ho (step_of_eq_some hs)⟩

/-- What holds where each step of a run starts, and at its end, holds at its beginning. -/
theorem holds_at_start {I : Configuration σ κ ρ → Prop} (h : Run P (fun m l => ok m l ∧ I m) m₀ m) (hm : I m) : I m₀ := by
  induction h with
  | refl => exact hm
  | step _ ho _ ih => exact ih ho.2

/-- The invariant rule for a property `S` of the state and a property `C` of each waiting call, which may depend on the
state: a call keeps `S`, keeps `C` of the calls under it, and makes only calls with `C`. -/
theorem invariant_stack {S : σ → Prop} {C : σ → κ → Prop} (h : Run P ok m₀ m)
    (h₀ : S m₀.state ∧ ∀ c ∈ m₀.stack, C m₀.state c)
    (hexec : ∀ r c rest s tr s' cs, S s → C s c → (∀ x ∈ rest, C s x) → ok ⟨s, c :: rest, tr⟩ (.run r) →
      P.exec r c s = some (s', cs) → S s' ∧ (∀ x ∈ cs, C s' x) ∧ ∀ x ∈ rest, C s' x)
    (henter : ∀ c s stack tr, S s → ok ⟨s, stack, tr⟩ (.enter c) → (P.event c = true ∨ P.reentry c = true) → C s c) :
    S m.state ∧ ∀ c ∈ m.stack, C m.state c := by
  refine h.invariant (I := fun m => S m.state ∧ ∀ c ∈ m.stack, C m.state c) h₀ ?_
  rintro m l m' - ⟨hS, hC⟩ ho hstep
  cases hstep with
  | run hw he =>
    simp only [List.mem_cons, forall_eq_or_imp] at hC
    obtain ⟨h1, h2, h3⟩ := hexec _ _ _ _ _ _ _ hS hC.1 hC.2 ho he
    refine ⟨h1, fun x hx => ?_⟩
    rcases List.mem_append.1 hx with hx | hx
    · exact h2 x hx
    · exact h3 x hx
  | event hc =>
    refine ⟨hS, fun x hx => ?_⟩
    rw [List.mem_singleton.1 hx]
    exact henter _ _ _ _ hS ho (Or.inl hc)
  | reentry hf hc =>
    refine ⟨hS, fun x hx => ?_⟩
    rcases List.mem_cons.1 hx with rfl | hx
    · exact henter _ _ _ _ hS ho (Or.inr hc)
    · exact hC x hx
  | leave hf => exact ⟨hS, fun x hx => hC x (List.mem_cons_of_mem _ hx)⟩

/-- The rule for what has to happen: if the calls that a call makes count for what it adds to `D`, and what comes in or returns
counts for nothing, then what ran and what waits count for `D` of the trace. -/
theorem tally_perm {α : Type} {w : κ → List α} {D : List (κ × ρ) → List α} (h : Run P ok m₀ m)
    (h₀ : (tally w m₀).Perm (D m₀.trace))
    (hexec : ∀ r c rest s tr s' cs, Run P ok m₀ ⟨s, c :: rest, tr⟩ → ok ⟨s, c :: rest, tr⟩ (.run r) →
      P.exec r c s = some (s', cs) → (cs.flatMap w ++ D tr).Perm (D ((c, r) :: tr)))
    (henter : ∀ c, P.event c = true ∨ P.reentry c = true → w c = []) (hleave : ∀ c, P.waits c = true → w c = []) :
    (tally w m).Perm (D m.trace) := by
  refine h.invariant (I := fun m => (tally w m).Perm (D m.trace)) h₀ ?_
  intro m l m' hr hI hok hs
  cases hs with
  | @run r c rest s tr s' cs hw he =>
    exact (tally_run w).trans ((hI.append_left _).trans (hexec r c rest s tr s' cs hr hok he))
  | event hc =>
    simpa only [tally, List.flatMap_cons, henter _ (Or.inl hc), List.nil_append] using hI
  | reentry hf hc =>
    simpa only [tally, List.flatMap_cons, henter _ (Or.inr hc), List.nil_append] using hI
  | leave hf =>
    simpa only [tally, List.flatMap_cons, hleave _ hf, List.nil_append] using hI

/-- The rule for what is done bit by bit: if a call does to `F` of the state what it counts for, or leaves it to the calls that it
makes, then what is left to do leads to the same as at the beginning. -/
theorem foldl_eq {τ α : Type} {w : κ → List α} {a : τ → α → τ} {F : σ → τ} (h : Run P ok m₀ m)
    (hexec : ∀ r c rest s tr s' cs, Run P ok m₀ ⟨s, c :: rest, tr⟩ → P.exec r c s = some (s', cs) →
      (cs.flatMap w).foldl a (F s') = (w c).foldl a (F s))
    (henter : ∀ m c, ¬ ok m (.enter c)) (hleave : ∀ c, P.waits c = true → w c = []) :
    (m.stack.flatMap w).foldl a (F m.state) = (m₀.stack.flatMap w).foldl a (F m₀.state) := by
  refine h.invariant (I := fun m =>
    (m.stack.flatMap w).foldl a (F m.state) = (m₀.stack.flatMap w).foldl a (F m₀.state)) rfl ?_
  intro m l m' hr hI hok hs
  cases hs with
  | @run r c rest s tr s' cs hw he =>
    rw [← hI, List.flatMap_append, List.flatMap_cons, List.foldl_append, List.foldl_append,
      hexec r c rest s tr s' cs hr he]
  | event hc => exact absurd hok (henter _ _)
  | reentry hf hc => exact absurd hok (henter _ _)
  | leave hf => rwa [List.flatMap_cons, hleave _ hf] at hI

/-- The rule for what is handed on in portions: a state holds `F` of it and a call `w`, `done` has arrived, and each step hands
on no more than there is and than is granted to it. -/
theorem flow_le {F : σ → Nat} {w : κ → Nat} {D G : List (κ × ρ) → Nat} (h : Run P ok m₀ m)
    (h₀ : F m₀.state + (m₀.stack.map w).sum + D m₀.trace ≤ G m₀.trace)
    (hexec : ∀ r c rest s tr s' cs, Run P ok m₀ ⟨s, c :: rest, tr⟩ → ok ⟨s, c :: rest, tr⟩ (.run r) →
      P.exec r c s = some (s', cs) →
      F s' + (cs.map w).sum + D ((c, r) :: tr) + G tr ≤ F s + w c + D tr + G ((c, r) :: tr))
    (henter : ∀ c, P.event c = true ∨ P.reentry c = true → w c = 0) :
    F m.state + (m.stack.map w).sum + D m.trace ≤ G m.trace := by
  refine h.invariant (I := fun m => F m.state + (m.stack.map w).sum + D m.trace ≤ G m.trace) h₀ ?_
  intro m l m' hr hI hok hs
  cases hs with
  | @run r c rest s tr s' cs hw he =>
    have hstep := hexec r c rest s tr s' cs hr hok he
    simp only [List.map_append, List.sum_append, List.map_cons, List.sum_cons] at hI ⊢
    omega
  | event hc =>
    simp only [List.map_cons, List.map_nil, List.sum_cons, List.sum_nil, henter _ (Or.inl hc)] at hI ⊢
    omega
  | reentry hf hc =>
    simp only [List.map_cons, List.sum_cons, henter _ (Or.inr hc)] at hI ⊢
    omega
  | leave hf =>
    simp only [List.map_cons, List.sum_cons] at hI ⊢
    omega

/-- The rule for what is bound to end: as long as it is not done, some step keeps the invariant and lowers its variant. -/
theorem exists_of_variant {I : Nat → Configuration σ κ ρ → Prop} {D : Configuration σ κ ρ → Prop} {n : Nat}
    (hstep : ∀ n m, I n m → ¬ D m → ∃ l m' n', ok m l ∧ CallMachine.step P m l = some m' ∧ I n' m' ∧ n' < n) (h : I n m) :
    ∃ n' m', Run P ok m m' ∧ I n' m' ∧ D m' := by
  induction n using Nat.strongRecOn generalizing m with
  | _ n ih =>
    by_cases hd : D m
    · exact ⟨n, m, .refl, h, hd⟩
    · obtain ⟨l, m₁, n₁, ho, hs, hI, hlt⟩ := hstep n m h hd
      obtain ⟨n', m', hr, hI', hd'⟩ := ih n₁ hlt hI
      exact ⟨n', m', (Run.refl.step ho hs).trans hr, hI', hd'⟩

/-- The calls on top of `rest` run in order before anything else of `rest` does: as long as they have not all returned, those
that are gone from the stack ran, one after the other. -/
theorem ran_of_above {xs rest : List κ} (h : Run P ok m₀ m) (hok : ∀ m l, ok m l → rest.length < m.stack.length)
    (hxs : ∀ x ∈ xs, P.waits x = false) (h₀ : m₀.stack = xs ++ rest) :
    ∃ zs ys done new, xs = done ++ ys ∧ m.stack = zs ++ ys ++ rest ∧ m.trace = new ++ m₀.trace ∧
      done.Sublist (new.reverse.map (·.1)) := by
  refine h.invariant (I := fun m => ∃ zs ys done new, xs = done ++ ys ∧ m.stack = zs ++ ys ++ rest ∧
    m.trace = new ++ m₀.trace ∧ done.Sublist (new.reverse.map (·.1))) ⟨[], xs, [], [], rfl, h₀, rfl, List.Sublist.slnil⟩ ?_
  rintro m l m' - ⟨zs, ys, done, new, hx, hstack, htrace, hsub⟩ ho hstep
  have hlen := hok _ _ ho
  cases hstep with
  | @run r c rest' s tr s' cs hw he =>
    have hnew : (c, r) :: tr = ((c, r) :: new) ++ m₀.trace := congrArg _ htrace
    cases zs with
    | nil =>
      cases ys with
      | nil =>
        rw [show c :: rest' = rest from hstack] at hlen
        exact absurd hlen (Nat.lt_irrefl _)
      | cons y ys =>
        obtain ⟨rfl, rfl⟩ := List.cons.inj hstack
        refine ⟨cs, ys, done ++ [c], (c, r) :: new, by rw [hx, List.append_assoc]; rfl, (List.append_assoc _ _ _).symm, hnew, ?_⟩
        rw [List.reverse_cons, List.map_append]
        exact hsub.append (List.Sublist.refl _)
    | cons z zs =>
      obtain ⟨rfl, hrest⟩ := List.cons.inj hstack
      have hrest : rest' = zs ++ ys ++ rest := hrest
      refine ⟨cs ++ zs, ys, done, (c, r) :: new, hx, by rw [hrest]; simp only [List.append_assoc], hnew, ?_⟩
      rw [List.reverse_cons, List.map_append]
      exact hsub.trans (List.sublist_append_left _ _)
  | event hc => exact absurd hlen (Nat.not_lt_zero _)
  | @reentry c f rest' s tr hf hc =>
    have hstack : f :: rest' = zs ++ ys ++ rest := hstack
    exact ⟨c :: zs, ys, done, new, hx, by rw [hstack]; rfl, htrace, hsub⟩
  | @leave f rest' s tr hf =>
    cases zs with
    | nil =>
      cases ys with
      | nil =>
        rw [show f :: rest' = rest from hstack] at hlen
        exact absurd hlen (Nat.lt_irrefl _)
      | cons y ys =>
        obtain ⟨rfl, -⟩ := List.cons.inj hstack
        have hwaits := hxs f (by rw [hx]; exact List.mem_append_right _ List.mem_cons_self)
        rw [hwaits] at hf
        cases hf
    | cons z zs =>
      obtain ⟨-, rfl⟩ := List.cons.inj hstack
      exact ⟨zs, ys, done, new, hx, rfl, htrace, hsub⟩

/-- When the calls on top of `rest` have returned, all of them ran, in order. -/
theorem ran_of_returned {xs rest : List κ} (h : Run P ok m₀ m) (hok : ∀ m l, ok m l → rest.length < m.stack.length)
    (hxs : ∀ x ∈ xs, P.waits x = false) (h₀ : m₀.stack = xs ++ rest) (hm : m.stack = rest) :
    ∃ new, m.trace = new ++ m₀.trace ∧ xs.Sublist (new.reverse.map (·.1)) := by
  obtain ⟨zs, ys, done, new, rfl, hstack, htrace, hsub⟩ := h.ran_of_above hok hxs h₀
  rw [hm] at hstack
  have hnil : zs ++ ys = [] := List.self_eq_append_left.1 hstack
  obtain ⟨rfl, rfl⟩ := List.append_eq_nil_iff.1 hnil
  rw [List.append_nil]
  exact ⟨new, htrace, hsub⟩

/-- A run only adds to the trace. -/
theorem trace_suffix (h : Run P ok m₀ m) : m₀.trace <:+ m.trace := by
  refine h.invariant (I := fun m => m₀.trace <:+ m.trace) List.suffix_rfl ?_
  rintro m l m' - hI - hstep
  cases hstep with
  | run hw he => exact hI.trans (List.suffix_cons _ _)
  | event hc => exact hI
  | reentry hf hc => exact hI
  | leave hf => exact hI

end Run

/-- Follow a list of labels, checking `ok` at every step. -/
def follow (P : Program σ κ ρ) (ok : Configuration σ κ ρ → Label κ ρ → Bool) (m : Configuration σ κ ρ) :
    List (Label κ ρ) → Option (Configuration σ κ ρ)
  | [] => some m
  | l :: ls => if ok m l then (step P m l).bind (fun m' => follow P ok m' ls) else none

/-- Labels are followed one part after the other. -/
theorem follow_append {P : Program σ κ ρ} {ok : Configuration σ κ ρ → Label κ ρ → Bool} {m m' : Configuration σ κ ρ}
    {ls : List (Label κ ρ)} (h : follow P ok m ls = some m') (ls' : List (Label κ ρ)) :
    follow P ok m (ls ++ ls') = follow P ok m' ls' := by
  induction ls generalizing m with
  | nil =>
    simp only [follow, Option.some.injEq] at h
    rw [List.nil_append, h]
  | cons l ls ih =>
    simp only [follow, Option.ite_none_right_eq_some] at h
    obtain ⟨ho, h⟩ := h
    obtain ⟨m₁, hs, h⟩ := Option.bind_eq_some_iff.1 h
    rw [List.cons_append, follow, if_pos ho, hs]
    exact ih h

/-- What the labels lead to is reached by a run. -/
theorem run_of_follow {P : Program σ κ ρ} {ok : Configuration σ κ ρ → Label κ ρ → Bool} {m m' : Configuration σ κ ρ}
    {ls : List (Label κ ρ)} (h : follow P ok m ls = some m') : Run P (fun m l => ok m l = true) m m' := by
  induction ls generalizing m with
  | nil =>
    simp only [follow, Option.some.injEq] at h
    exact h ▸ .refl
  | cons l ls ih =>
    simp only [follow, Option.ite_none_right_eq_some] at h
    obtain ⟨ho, h⟩ := h
    obtain ⟨m₁, hs, h⟩ := Option.bind_eq_some_iff.1 h
    exact ((Run.refl (P := P)).step ho hs).trans (ih h)

/-- A check of what the labels lead to says that a run leads to such a configuration. -/
theorem exists_run_of_follow (P : Program σ κ ρ) (ok : Configuration σ κ ρ → Label κ ρ → Bool) (m : Configuration σ κ ρ)
    (ls : List (Label κ ρ)) (p : Configuration σ κ ρ → Bool) (h : (follow P ok m ls).any p = true) :
    ∃ m', Run P (fun m l => ok m l = true) m m' ∧ p m' = true := by
  obtain ⟨m', hm', hp⟩ := (Option.any_eq_true _ _).1 h
  exact ⟨m', run_of_follow hm', hp⟩

end CallMachine
