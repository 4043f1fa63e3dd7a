import Dhtsim.Lib.CallMachine

/-!
# What the steps of a run write down

A journal of a run is the list of what its steps write down, each from the configuration that it starts from. It says things that
the last configuration does not, such as what a queue held before. What holds of the journals of all runs is shown by the rule
`Journal.invariant`; for a queue there are `Journal.queue`, where nothing gets lost, and `Journal.channel`, where something may.
-/

namespace CallMachine

variable {σ κ ρ ε α : Type}

/-- The configurations that a run leads to, each with what the steps up to there wrote down, the first of it first. -/
inductive Journal (P : Program σ κ ρ) (ok : Configuration σ κ ρ → Label κ ρ → Prop)
    (write : Configuration σ κ ρ → Label κ ρ → List ε) (m₀ : Configuration σ κ ρ) : List ε → Configuration σ κ ρ → Prop where
  | refl : Journal P ok write m₀ [] m₀
  | step {m m' : Configuration σ κ ρ} {l : Label κ ρ} {es : List ε} : Journal P ok write m₀ es m → ok m l →
      CallMachine.step P m l = some m' → Journal P ok write m₀ (es ++ write m l) m'

variable {P : Program σ κ ρ} {ok : Configuration σ κ ρ → Label κ ρ → Prop} {write : Configuration σ κ ρ → Label κ ρ → List ε}
  {m₀ m : Configuration σ κ ρ} {es : List ε}

/-- Every run has a journal. -/
theorem Run.journal (h : Run P ok m₀ m) : ∃ es, Journal P ok write m₀ es m := by
  induction h with
  | refl => exact ⟨[], .refl⟩
  | step _ ho hs ih =>
    obtain ⟨es, hes⟩ := ih
    exact ⟨_, hes.step ho hs⟩

namespace Journal

/-- A journal is one of a run. -/
theorem run (h : Journal P ok write m₀ es m) : Run P ok m₀ m := by
  induction h with
  | refl => exact .refl
  | step _ ho hs ih => exact ih.step ho hs

theorem mono {ok' : Configuration σ κ ρ → Label κ ρ → Prop} (hok : ∀ m l, ok m l → ok' m l) (h : Journal P ok write m₀ es m) :
    Journal P ok' write m₀ es m := by
  induction h with
  | refl => exact .refl
  | step _ ho hs ih => exact ih.step (hok _ _ ho) hs

/-- A journal goes on with one of a run that starts where it ends. -/
theorem trans {es' : List ε} {m' : Configuration σ κ ρ} (h : Journal P ok write m₀ es m) (h' : Journal P ok write m es' m') :
    Journal P ok write m₀ (es ++ es') m' := by
  induction h' with
  | refl =>
    rw [List.append_nil]
    exact h
  | step _ ho hs ih =>
    rw [← List.append_assoc]
    exact ih.step ho hs

/-- What holds first, and at the end of every step unless the goal is reached where the step starts, holds at the end, or there is
a part of the journal after which the goal is reached. -/
theorem reaches {W G : Configuration σ κ ρ → Prop} (h : Journal P ok write m₀ es m) (h₀ : W m₀)
    (hstep : ∀ m l m', Run P ok m₀ m → W m → ¬ G m → ok m l → Step P m l m' → W m') :
    W m ∨ ∃ es₁ es₂ m₁, es = es₁ ++ es₂ ∧ Journal P ok write m₀ es₁ m₁ ∧ G m₁ ∧ Journal P ok write m₁ es₂ m := by
  induction h with
  | refl => exact Or.inl h₀
  | @step m m' l es hr ho hs ih =>
    rcases ih with hW | ⟨es₁, es₂, m₁, rfl, h₁, hG, h₂⟩
    · by_cases hG : G m
      · exact Or.inr ⟨es, write m l, m, rfl, hr, hG, Journal.refl.step ho hs⟩
      · exact Or.inl (hstep m l m' hr.run hW hG ho (step_of_eq_some hs))
    · exact Or.inr ⟨es₁, es₂ ++ write m l, m₁, List.append_assoc .., h₁, hG, h₂.step ho hs⟩

/-- What holds of the empty journal, and still holds when a step writes down what it does, holds of every journal. -/
theorem invariant {I : List ε → Configuration σ κ ρ → Prop} (h : Journal P ok write m₀ es m) (h₀ : I [] m₀)
    (hstep : ∀ es m l m', Run P ok m₀ m → I es m → ok m l → Step P m l m' → I (es ++ write m l) m') : I es m := by
  induction h with
  | refl => exact h₀
  | step hr ho hs ih => exact hstep _ _ _ _ hr.run ih ho (step_of_eq_some hs)

/-- What holds of an entry when it is written, and goes on to hold, holds of every entry. -/
theorem entries {Q : ε → Configuration σ κ ρ → Prop} (h : Journal P ok write m₀ es m)
    (hnew : ∀ m l m', Run P ok m₀ m → ok m l → Step P m l m' → ∀ e ∈ write m l, Q e m')
    (hold : ∀ m l m', Run P ok m₀ m → ok m l → Step P m l m' → ∀ e, Q e m → Q e m') : ∀ e ∈ es, Q e m := by
  refine h.invariant (I := fun es m => ∀ e ∈ es, Q e m) (fun e he => absurd he List.not_mem_nil) ?_
  intro es m l m' hr hI hl hs e he
  rcases List.mem_append.1 he with he | he
  · exact hold m l m' hr hl hs e (hI e he)
  · exact hnew m l m' hr hl hs e he

section Queues

variable {ins outs : ε → List α}

/-- A queue: what went in is what came out, in the same order, and then what is in it. -/
theorem queue (h : Journal P ok write m₀ es m) (content : Configuration σ κ ρ → List α) (h₀ : content m₀ = [])
    (hstep : ∀ m l m', Run P ok m₀ m → ok m l → Step P m l m' →
      content m ++ (write m l).flatMap ins = (write m l).flatMap outs ++ content m') :
    es.flatMap ins = es.flatMap outs ++ content m := by
  refine h.invariant (I := fun es m => es.flatMap ins = es.flatMap outs ++ content m) h₀.symm ?_
  intro es m l m' hr hI hl hs
  rw [List.flatMap_append, List.flatMap_append, hI, List.append_assoc, hstep m l m' hr hl hs, List.append_assoc]

/-- A channel that may lose something: what came out, and then what is in it, is part of what went in, in the same order. -/
theorem channel (h : Journal P ok write m₀ es m) (content : Configuration σ κ ρ → List α) (h₀ : content m₀ = [])
    (hstep : ∀ m l m', Run P ok m₀ m → ok m l → Step P m l m' →
      ((write m l).flatMap outs ++ content m').Sublist (content m ++ (write m l).flatMap ins)) :
    (es.flatMap outs ++ content m).Sublist (es.flatMap ins) := by
  refine h.invariant (I := fun es m => (es.flatMap outs ++ content m).Sublist (es.flatMap ins)) ?_ ?_
  · rw [h₀]
    exact List.Sublist.refl _
  · intro es m l m' hr hI hl hs
    have hkept : (es.flatMap outs ++ ((write m l).flatMap outs ++ content m')).Sublist
        (es.flatMap outs ++ (content m ++ (write m l).flatMap ins)) := (hstep m l m' hr hl hs).append_left _
    rw [← List.append_assoc, ← List.append_assoc] at hkept
    rw [List.flatMap_append, List.flatMap_append]
    exact hkept.trans (hI.append_right _)

end Queues

end Journal

/-- What is written down when the labels are followed, and where they lead to. -/
def record (P : Program σ κ ρ) (ok : Configuration σ κ ρ → Label κ ρ → Bool) (write : Configuration σ κ ρ → Label κ ρ → List ε)
    (m : Configuration σ κ ρ) : List (Label κ ρ) → Option (List ε × Configuration σ κ ρ)
  | [] => some ([], m)
  | l :: ls =>
    if ok m l then (step P m l).bind (fun m' => (record P ok write m' ls).map (fun p => (write m l ++ p.1, p.2)))
    else none

/-- What is recorded after a journal goes on with it. -/
theorem journal_of_record {ok : Configuration σ κ ρ → Label κ ρ → Bool} {ls : List (Label κ ρ)}
    {p : List ε × Configuration σ κ ρ} (h : Journal P (fun m l => ok m l = true) write m₀ es m)
    (hp : record P ok write m ls = some p) : Journal P (fun m l => ok m l = true) write m₀ (es ++ p.1) p.2 := by
  induction ls generalizing m es p with
  | nil =>
    simp only [record, Option.some.injEq] at hp
    rw [← hp, List.append_nil]
    exact h
  | cons l ls ih =>
    simp only [record, Option.ite_none_right_eq_some] at hp
    obtain ⟨ho, hp⟩ := hp
    obtain ⟨m', hs, hp⟩ := Option.bind_eq_some_iff.1 hp
    obtain ⟨p', hp', rfl⟩ := Option.map_eq_some_iff.1 hp
    rw [← List.append_assoc]
    exact ih (h.step ho hs) hp'

/-- A check of what is recorded says that a journal is such. -/
theorem exists_journal_of_record (P : Program σ κ ρ) (ok : Configuration σ κ ρ → Label κ ρ → Bool)
    (write : Configuration σ κ ρ → Label κ ρ → List ε) (m : Configuration σ κ ρ) (ls : List (Label κ ρ))
    (p : List ε → Configuration σ κ ρ → Bool) (h : (record P ok write m ls).any (fun e => p e.1 e.2) = true) :
    ∃ es m', Journal P (fun m l => ok m l = true) write m es m' ∧ p es m' = true := by
  obtain ⟨e, he, hp⟩ := (Option.any_eq_true _ _).1 h
  exact ⟨e.1, e.2, journal_of_record .refl he, hp⟩

end CallMachine
