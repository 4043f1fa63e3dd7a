import Dhtsim.Lib.CallMachine

/-!
# Programs in use

A program that waits for events, closed by the code that uses it: a client with calls of its own, whose bodies call the program,
and whose functions are the outside code that the program calls. Those look at what the program does and change the client, and
return without a call. Together they are a program that waits for nothing, and its runs are runs of the one that is used
(`run_used`).
-/

namespace CallMachine

variable {σ κ ρ τ δ ν : Type}

/-- The code that uses a program. -/
structure Client (σ κ ρ τ δ ν : Type) where
  /-- The effect of a call of the client: its state after the body, the events of the program that the body makes, and the calls of
  the client that follow them. -/
  exec : ν → δ → σ → τ → Option (τ × List κ × List δ)
  /-- What the client's functions do when a call of the program runs them, or prints. -/
  watch : κ → σ → τ → τ

/-- The calls of a program and its client. -/
inductive ClientCall (κ δ : Type) where
  | own (d : δ)
  /-- The client calls the program. -/
  | enter (c : κ)
  /-- A call of the program. -/
  | inside (c : κ)
deriving DecidableEq

namespace Client

/-- A program in use. -/
def program (K : Client σ κ ρ τ δ ν) (P : Program σ κ ρ) : Program (σ × τ) (ClientCall κ δ) (ρ × ν) where
  exec r x s :=
    match x with
    | .own d => (K.exec r.2 d s.1 s.2).map (fun p => ((s.1, p.1), p.2.1.map .enter ++ p.2.2.map .own))
    | .enter c => if P.event c then some (s, [.inside c]) else none
    | .inside c =>
      if P.waits c then some (s, [])
      else (P.exec r.1 c s.1).map (fun p => ((p.1, K.watch c s.1 s.2), p.2.map .inside))
  waits _ := false
  event _ := false
  reentry _ := false

end Client

/-- The call of the program, if it is one. -/
def ClientCall.used : ClientCall κ δ → List κ
  | .inside c => [c]
  | _ => []

/-- What a step ran of the program. -/
def ranUsed (P : Program σ κ ρ) : ClientCall κ δ × ρ × ν → List (κ × ρ)
  | (.inside c, r, _) => if P.waits c then [] else [(c, r)]
  | _ => []

/-- The program that is used. -/
def usedConfig (P : Program σ κ ρ) (m : Configuration (σ × τ) (ClientCall κ δ) (ρ × ν)) : Configuration σ κ ρ :=
  ⟨m.state.1, m.stack.flatMap ClientCall.used, m.trace.flatMap (ranUsed P)⟩

/-- The step of the program in a step of a program in use, if there is one. -/
def usedLabel (P : Program σ κ ρ) (m : Configuration (σ × τ) (ClientCall κ δ) (ρ × ν)) (r : ρ × ν) : Option (Label κ ρ) :=
  match m.stack with
  | .inside c :: _ => some (if P.waits c then .leave else .run r.1)
  | .enter c :: _ => some (.enter c)
  | _ => none

/-- The calls of the program are above those of its client. -/
def UsedAbove (stack : List (ClientCall κ δ)) : Prop :=
  ∃ (xs : List κ) (ys : List (ClientCall κ δ)), stack = xs.map .inside ++ ys ∧ ys.flatMap ClientCall.used = []

theorem used_map_inside (xs : List κ) : (xs.map (ClientCall.inside (δ := δ))).flatMap ClientCall.used = xs := by
  induction xs with
  | nil => rfl
  | cons x xs ih => rw [List.map_cons, List.flatMap_cons, ih]; rfl

theorem used_map_enter (xs : List κ) : (xs.map (ClientCall.enter (δ := δ))).flatMap ClientCall.used = [] :=
  List.flatMap_eq_nil_iff.2 (fun x hx => by obtain ⟨c, -, rfl⟩ := List.mem_map.1 hx; rfl)

theorem used_map_own (ds : List δ) : (ds.map (ClientCall.own (κ := κ))).flatMap ClientCall.used = [] :=
  List.flatMap_eq_nil_iff.2 (fun x hx => by obtain ⟨d, -, rfl⟩ := List.mem_map.1 hx; rfl)

/-- Under a call of the client there are no calls of the program. -/
theorem UsedAbove.below {x : ClientCall κ δ} {rest : List (ClientCall κ δ)} (h : UsedAbove (x :: rest)) (hx : x.used = []) :
    rest.flatMap ClientCall.used = [] := by
  obtain ⟨xs, ys, hstack, hys⟩ := h
  cases xs with
  | nil =>
    rw [List.map_nil, List.nil_append] at hstack
    rw [← hstack, List.flatMap_cons, hx] at hys
    exact hys
  | cons c xs =>
    rw [(List.cons.inj hstack).1] at hx
    cases hx

/-- The calls that a call of the program makes are calls of the program. -/
theorem UsedAbove.push {c : κ} {rest : List (ClientCall κ δ)} (h : UsedAbove (.inside c :: rest)) (cs : List κ) :
    UsedAbove (cs.map .inside ++ rest) := by
  obtain ⟨xs, ys, hstack, hys⟩ := h
  cases xs with
  | nil =>
    rw [List.map_nil, List.nil_append] at hstack
    rw [← hstack] at hys
    cases hys
  | cons x xs =>
    have hrest : rest = xs.map .inside ++ ys := (List.cons.inj hstack).2
    refine ⟨cs ++ xs, ys, ?_, hys⟩
    rw [hrest, List.map_append, List.append_assoc]

variable {K : Client σ κ ρ τ δ ν} {P : Program σ κ ρ} {ok : Configuration (σ × τ) (ClientCall κ δ) (ρ × ν) →
  Label (ClientCall κ δ) (ρ × ν) → Prop} {ok' : Configuration σ κ ρ → Label κ ρ → Prop}
  {m₀ m : Configuration (σ × τ) (ClientCall κ δ) (ρ × ν)}

/-- The calls of the program stay above those of its client. -/
theorem usedAbove_of_run (h : Run (K.program P) ok m₀ m) (h₀ : UsedAbove m₀.stack) : UsedAbove m.stack := by
  refine h.invariant (I := fun m => UsedAbove m.stack) h₀ ?_
  rintro m l m' - hI - hs
  cases hs with
  | @run r c rest s tr s' cs hw he =>
    cases c with
    | own d =>
      obtain ⟨p, -, hp⟩ := Option.map_eq_some_iff.1 he
      cases hp
      refine ⟨[], (p.2.1.map .enter ++ p.2.2.map .own) ++ rest, rfl, ?_⟩
      rw [List.flatMap_append, List.flatMap_append, used_map_enter, used_map_own, hI.below rfl]
      rfl
    | enter c =>
      obtain ⟨-, hp⟩ := Option.ite_none_right_eq_some.1 he
      cases hp
      exact ⟨[c], rest, rfl, hI.below rfl⟩
    | inside c =>
      simp only [Client.program] at he
      split at he
      · cases he
        exact hI.push []
      · obtain ⟨p, -, hp⟩ := Option.map_eq_some_iff.1 he
        cases hp
        exact hI.push _
  | event hc => cases hc
  | reentry hf hc => cases hc
  | leave hf => cases hf

/-- A run of a program in use is, for the program, one of its runs. -/
theorem run_used (h : Run (K.program P) ok m₀ m) (h₀ : UsedAbove m₀.stack)
    (hok : ∀ m r l, Run (K.program P) ok m₀ m → ok m (.run r) → usedLabel P m r = some l → ok' (usedConfig P m) l) :
    Run P ok' (usedConfig P m₀) (usedConfig P m) := by
  refine h.invariant (I := fun m => Run P ok' (usedConfig P m₀) (usedConfig P m)) .refl ?_
  intro m l m' hr hI ho hs
  have habove := usedAbove_of_run hr h₀
  cases hs with
  | @run r c rest s tr s' cs hw he =>
    have hok' := fun l => hok _ r l hr ho
    cases c with
    | own d =>
      obtain ⟨p, -, hp⟩ := Option.map_eq_some_iff.1 he
      cases hp
      have heq : usedConfig P ⟨(s.1, p.1), (p.2.1.map .enter ++ p.2.2.map .own) ++ rest, (.own d, r) :: tr⟩ =
          usedConfig P ⟨s, .own d :: rest, tr⟩ := by
        simp only [usedConfig, List.flatMap_append, List.flatMap_cons, used_map_enter, used_map_own]
        rfl
      rw [heq]
      exact hI
    | enter c =>
      obtain ⟨hc, hp⟩ := Option.ite_none_right_eq_some.1 he
      cases hp
      have hrest : rest.flatMap ClientCall.used = [] := habove.below rfl
      refine hI.step (hok' _ rfl) ?_
      have hstack : usedConfig P ⟨s, .enter c :: rest, tr⟩ = ⟨s.1, [], tr.flatMap (ranUsed P)⟩ := by
        simp only [usedConfig, List.flatMap_cons, hrest]
        rfl
      have hstack' : usedConfig P ⟨s, [.inside c] ++ rest, (.enter c, r) :: tr⟩ = ⟨s.1, [c], tr.flatMap (ranUsed P)⟩ := by
        simp only [usedConfig, List.flatMap_append, List.flatMap_cons, hrest]
        rfl
      rw [hstack, hstack']
      exact (Step.event hc).step_eq
    | inside c =>
      have hstack : usedConfig P ⟨s, .inside c :: rest, tr⟩ =
          ⟨s.1, c :: rest.flatMap ClientCall.used, tr.flatMap (ranUsed P)⟩ := rfl
      have hlabel := hok' _ rfl
      simp only [Client.program] at he
      split at he
      · next hwaits =>
        cases he
        refine hI.step (l := .leave) (by simpa only [hwaits, if_true] using hlabel) ?_
        have hstack' : usedConfig P ⟨s, [] ++ rest, (.inside c, r) :: tr⟩ =
            ⟨s.1, rest.flatMap ClientCall.used, tr.flatMap (ranUsed P)⟩ := by
          simp only [usedConfig, List.flatMap_cons, ranUsed, hwaits, if_true, List.nil_append]
        rw [hstack, hstack']
        exact (Step.leave hwaits).step_eq
      · next hwaits =>
        obtain ⟨p, hp, heq⟩ := Option.map_eq_some_iff.1 he
        cases heq
        have hwaits : P.waits c = false := Bool.eq_false_iff.2 hwaits
        refine hI.step (l := .run r.1) (by simpa only [hwaits, Bool.false_eq_true, if_false] using hlabel) ?_
        have hstack' : usedConfig P ⟨(p.1, K.watch c s.1 s.2), p.2.map .inside ++ rest, (.inside c, r) :: tr⟩ =
            ⟨p.1, p.2 ++ rest.flatMap ClientCall.used, (c, r.1) :: tr.flatMap (ranUsed P)⟩ := by
          simp only [usedConfig, List.flatMap_append, List.flatMap_cons, used_map_inside, ranUsed, hwaits, Bool.false_eq_true,
            if_false, List.singleton_append]
        rw [hstack, hstack']
        exact (Step.run hwaits hp).step_eq
  | event hc => cases hc
  | reentry hf hc => cases hc
  | leave hf => cases hf

end CallMachine
