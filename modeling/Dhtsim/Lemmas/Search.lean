import Dhtsim.Lemmas.CallGraph

/-!
# A search

A lookup for a target as an abstract search: what it was offered, whom it asked, who replied, who timed out (`LookupView`), and
how far it is (`LookupPhase`). `Progress` says that a finder of the node shows the search; each step of a search keeps it so.
-/

namespace Dhtsim

/-- How far a lookup is: about to learn of new nodes, waiting for a contact, at its end without a value or with one, or done
but for the callbacks. -/
inductive LookupPhase where
  | step (newNodes : List BucketEntry)
  | request (top : BucketEntry)
  | exhausted (findValue : Bool)
  | valued
  | closing

/-- The contact that was asked and has not replied. -/
def LookupPhase.inFlight : LookupPhase → List BucketEntry
  | .request top => [top]
  | _ => []

/-- The nodes that the lookup is about to learn of. -/
def LookupPhase.newNodes : LookupPhase → List BucketEntry
  | .step newNodes => newNodes
  | _ => []

def LookupPhase.waiting : LookupPhase → UInt32
  | .request _ => 1
  | _ => 0

/-- A lookup, seen from outside. -/
structure LookupView where
  started : List Bool
  offered : List BucketEntry
  asked : List BucketEntry
  replied : List (BucketEntry × FindNodesMessage)
  timedOut : List BucketEntry

/-- What a finder of a lookup in a phase has to do with the view of the lookup. -/
structure Progress (t : KademliaKey) (v : LookupView) (nf : NodeFinder) (φ : LookupPhase) : Prop where
  /-- `seen` holds the keys that were offered. -/
  seen : nf.seen.Nodup
  offered : ∀ k, k ∈ nf.seen ↔ k ∈ v.offered.map (·.key)
  /-- Each of them is still uncontacted or was asked, once. -/
  partition : ((nf.uncontacted ++ v.asked).map (·.key)).Perm nf.seen
  entries : ∀ e ∈ nf.uncontacted ++ v.asked, e ∈ v.offered
  /-- What the replies listed was offered, or is about to be, unless a reply carried a value. -/
  replies : φ ≠ .valued → φ ≠ .closing → ∀ r ∈ v.replied, ∀ e ∈ r.2.nearest, e ∈ v.offered ++ φ.newNodes
  /-- Whoever was asked has replied, has timed out, or is waited for. -/
  outcomes : v.asked.Perm (v.replied.map (·.1) ++ v.timedOut ++ φ.inFlight)
  contacted : nf.contacted.Perm (v.replied.map (·.1))
  waiting : nf.waiting = φ.waiting
  /-- Who is asked is the closest. -/
  closest : ∀ top, φ = .request top → ∀ e ∈ nf.uncontacted, top.key.distanceTo t ≤ e.key.distanceTo t
  exhausted : ∀ findValue, φ = .exhausted findValue → nf.uncontacted = [] ∧ nf.findValue = findValue
  valued : φ = .valued → ∃ r ∈ v.replied, (r.2.findValue && r.2.valueFound) = true
  /-- No reply carried a value, before one did. -/
  noValue : φ ≠ .valued → φ ≠ .closing → ∀ r ∈ v.replied, (r.2.findValue && r.2.valueFound) = false
  started : v.started.head? = some nf.findValue

/-! ## Learning -/

namespace NodeFinder

/-- Learning of nodes adds those with a new key to the uncontacted ones and their keys to the seen ones, and changes nothing
else. -/
theorem learn_spec (nf : NodeFinder) (l : List BucketEntry) :
    ∃ added, nf.learn l = { nf with uncontacted := nf.uncontacted ++ added, seen := (nf.learn l).seen } ∧
      (nf.learn l).seen.Perm (added.map (·.key) ++ nf.seen) ∧ (∀ e ∈ added, e ∈ l) ∧
      (nf.seen.Nodup → (nf.learn l).seen.Nodup) ∧
      ∀ k, k ∈ (nf.learn l).seen ↔ k ∈ nf.seen ∨ k ∈ l.map (·.key) := by
  induction l generalizing nf with
  | nil => exact ⟨[], by simp [learn], List.Perm.refl _, by simp, id, by simp [learn]⟩
  | cons e l ih =>
    by_cases hmem : e.key ∈ nf.seen
    · obtain ⟨added, heq, hperm, hsub, hnodup, hseen⟩ := ih nf
      simp only [learn, if_pos hmem]
      refine ⟨added, heq, hperm, fun x hx => List.mem_cons_of_mem _ (hsub x hx), hnodup, fun k => ?_⟩
      rw [hseen, List.map_cons, List.mem_cons]
      constructor
      · exact Or.imp_right Or.inr
      · rintro (h | rfl | h)
        · exact Or.inl h
        · exact Or.inl hmem
        · exact Or.inr h
    · obtain ⟨added, heq, hperm, hsub, hnodup, hseen⟩ :=
        ih { nf with uncontacted := nf.uncontacted ++ [e], seen := e.key :: nf.seen }
      simp only [learn, if_neg hmem]
      refine ⟨e :: added, ?_, ?_, ?_, ?_, fun k => ?_⟩
      · rw [heq]
        simp
      · exact hperm.trans List.perm_middle
      · intro x hx
        rcases List.mem_cons.1 hx with rfl | hx
        · exact List.mem_cons_self
        · exact List.mem_cons_of_mem _ (hsub x hx)
      · exact fun h => hnodup (List.nodup_cons.2 ⟨hmem, h⟩)
      · rw [hseen, List.mem_cons, List.map_cons, List.mem_cons, or_assoc, or_left_comm]

end NodeFinder

/-! ## The steps of a lookup -/

namespace Progress

variable {t : KademliaKey} {v : LookupView} {nf : NodeFinder} {φ : LookupPhase} {top : BucketEntry}

/-- A lookup starts with nothing but what `getNearest` is about to offer. -/
theorem start (findValue : Bool) (cb : CallbackSet FindNodesFn) (l : List BucketEntry) :
    Progress t ⟨[findValue], [], [], [], []⟩ (NodeFinder.new findValue t cb) (.step l) where
  seen := List.nodup_nil
  offered _ := Iff.rfl
  partition := List.Perm.refl _
  entries e he := absurd he List.not_mem_nil
  replies _ _ r hr := absurd hr List.not_mem_nil
  outcomes := List.Perm.refl _
  contacted := List.Perm.refl _
  waiting := rfl
  closest _ h := by cases h
  exhausted _ h := by cases h
  valued h := by cases h
  noValue _ _ r hr := absurd hr List.not_mem_nil
  started := rfl

/-- A caller who joins changes nothing but the callbacks. -/
theorem join (h : Progress t v nf φ) (findValue : Bool) (cb : CallbackSet FindNodesFn) :
    Progress t { v with started := v.started ++ [findValue] } { nf with findNodesCallback := cb } φ where
  seen := h.seen
  offered := h.offered
  partition := h.partition
  entries := h.entries
  replies := h.replies
  outcomes := h.outcomes
  contacted := h.contacted
  waiting := h.waiting
  closest := h.closest
  exhausted := h.exhausted
  valued := h.valued
  noValue := h.noValue
  started := by
    rw [List.head?_append, h.started]
    rfl

/-- Learning of nodes: each key that was offered is still uncontacted or was asked. -/
theorem learn {l : List BucketEntry} (h : Progress t v nf (.step l)) :
    (nf.learn l).seen.Nodup ∧ (∀ k, k ∈ (nf.learn l).seen ↔ k ∈ (v.offered ++ l).map (·.key)) ∧
      (((nf.learn l).uncontacted ++ v.asked).map (·.key)).Perm (nf.learn l).seen ∧
      (∀ e ∈ (nf.learn l).uncontacted ++ v.asked, e ∈ v.offered ++ l) ∧
      (nf.learn l).contacted = nf.contacted ∧ (nf.learn l).waiting = 0 ∧ (nf.learn l).findValue = nf.findValue := by
  obtain ⟨added, heq, hperm, hadded, hnodup, hseen⟩ := nf.learn_spec l
  have hun : (nf.learn l).uncontacted = nf.uncontacted ++ added := by rw [heq]
  have hwait : (nf.learn l).waiting = nf.waiting := by rw [heq]
  refine ⟨hnodup h.seen, fun k => ?_, ?_, fun e he => ?_, by rw [heq], hwait.trans h.waiting, by rw [heq]⟩
  · rw [hseen, h.offered, List.map_append, List.mem_append]
  · rw [hun]
    refine List.Perm.trans ?_ hperm.symm
    have hswap : (nf.uncontacted ++ added ++ v.asked).Perm (added ++ (nf.uncontacted ++ v.asked)) := by
      rw [List.append_assoc]
      exact List.perm_append_comm_assoc _ _ _
    refine (hswap.map (·.key)).trans ?_
    rw [List.map_append]
    exact h.partition.append_left _
  · rw [hun, List.append_assoc, List.mem_append, List.mem_append] at he
    rw [List.mem_append]
    rcases he with he | he | he
    · exact Or.inl (h.entries e (List.mem_append_left _ he))
    · exact Or.inr (hadded e he)
    · exact Or.inl (h.entries e (List.mem_append_right _ he))

/-- With nobody left to ask the lookup is exhausted. -/
theorem exhaust {l : List BucketEntry} (h : Progress t v nf (.step l)) (hun : (nf.learn l).uncontacted = []) :
    Progress t { v with offered := v.offered ++ l } (nf.learn l) (.exhausted nf.findValue) := by
  obtain ⟨h1, h2, h3, he, h4, h5, h6⟩ := h.learn
  exact {
    seen := h1
    offered := h2
    partition := h3
    entries := he
    replies := fun _ _ r hr e he => List.mem_append_left _ (h.replies (by simp) (by simp) r hr e he)
    outcomes := h.outcomes
    contacted := h4 ▸ h.contacted
    waiting := h5
    closest := fun _ h => by cases h
    exhausted := fun _ h => by cases h; exact ⟨hun, h6⟩
    valued := fun h => by cases h
    noValue := fun _ _ => h.noValue (by simp) (by simp)
    started := h6 ▸ h.started }

/-- Otherwise the closest uncontacted node is asked. -/
theorem ask {Γ : Ctx} {l uncontacted : List BucketEntry} (h : Progress t v nf (.step l))
    (hs : sortByDistanceTo Γ t (nf.learn l).uncontacted = top :: uncontacted) :
    Progress t { v with offered := v.offered ++ l, asked := v.asked ++ [top] }
      { nf.learn l with uncontacted := uncontacted, waiting := (nf.learn l).waiting + 1 } (.request top) := by
  obtain ⟨h1, h2, h3, he, h4, h5, h6⟩ := h.learn
  have hperm : (top :: uncontacted).Perm (nf.learn l).uncontacted := hs ▸ Γ.sort_perm _ _
  have hsorted := sorted_sortByDistanceTo Γ t (nf.learn l).uncontacted
  rw [hs] at hsorted
  have hmove : (uncontacted ++ (v.asked ++ [top])).Perm ((nf.learn l).uncontacted ++ v.asked) := by
    rw [← List.append_assoc]
    exact (List.perm_append_singleton _ _).trans (hperm.append_right _)
  exact {
    seen := h1
    offered := h2
    partition := (hmove.map _).trans h3
    entries := fun e hmem => he e (hmove.mem_iff.1 hmem)
    replies := fun _ _ r hr e he => List.mem_append_left _ (h.replies (by simp) (by simp) r hr e he)
    outcomes := by
      have hout := h.outcomes
      simp only [LookupPhase.inFlight, List.append_nil] at hout ⊢
      exact hout.append_right [top]
    contacted := h4 ▸ h.contacted
    waiting := by
      simp only [h5]
      rfl
    closest := fun top' heq e hmem => by
      cases heq
      exact (List.pairwise_cons.1 hsorted).1 e hmem
    exhausted := fun _ h => by cases h
    valued := fun h => by cases h
    noValue := fun _ _ => h.noValue (by simp) (by simp)
    started := h6 ▸ h.started }

/-- The contact that was asked replies. -/
theorem reply (h : Progress t v nf (.request top)) (fm : FindNodesMessage) :
    Progress t { v with replied := v.replied ++ [(top, fm)] }
      { nf with contacted := nf.contacted ++ [top], waiting := nf.waiting - 1 }
      (if fm.findValue && fm.valueFound then .valued else .step fm.nearest) where
  seen := h.seen
  offered := h.offered
  partition := h.partition
  entries := h.entries
  replies hv _ r hr e he := by
    have hphase : ¬(fm.findValue && fm.valueFound) = true := fun hfv => hv (if_pos hfv)
    rw [if_neg hphase, List.mem_append]
    rcases List.mem_append.1 hr with hr | hr
    · exact Or.inl (by simpa [LookupPhase.newNodes] using h.replies (by simp) (by simp) r hr e he)
    · rw [List.mem_singleton.1 hr] at he
      exact Or.inr he
  outcomes := by
    have hin : (if fm.findValue && fm.valueFound then LookupPhase.valued else .step fm.nearest).inFlight = [] := by
      split <;> rfl
    refine h.outcomes.trans ?_
    rw [hin, List.append_nil, List.map_append, List.append_assoc, List.append_assoc]
    exact List.Perm.append_left _ List.perm_append_comm
  contacted := by
    rw [List.map_append]
    exact h.contacted.append_right _
  waiting := by
    have hone : (LookupPhase.request top).waiting - 1 = 0 := show (1 : UInt32) - 1 = 0 by decide
    simp only [h.waiting, hone]
    split <;> rfl
  closest top' he := by split at he <;> cases he
  exhausted _ he := by split at he <;> cases he
  valued hv := by
    refine ⟨(top, fm), List.mem_append_right _ (List.mem_singleton_self _), ?_⟩
    split at hv
    · assumption
    · cases hv
  noValue h1 _ r hr := by
    rcases List.mem_append.1 hr with hr | hr
    · exact h.noValue (by simp) (by simp) r hr
    · rw [List.mem_singleton.1 hr]
      by_contra hv
      exact h1 (if_pos (by simpa using hv))
  started := h.started

/-- The request of the contact runs out of retries. -/
theorem timeOut (h : Progress t v nf (.request top)) :
    Progress t { v with timedOut := v.timedOut ++ [top] } { nf with waiting := nf.waiting - 1 } (.step []) where
  seen := h.seen
  offered := h.offered
  partition := h.partition
  entries := h.entries
  replies _ _ r hr e he := by simpa [LookupPhase.newNodes] using h.replies (by simp) (by simp) r hr e he
  outcomes := by
    refine h.outcomes.trans (List.Perm.of_eq ?_)
    simp [LookupPhase.inFlight]
  contacted := h.contacted
  waiting := by
    have hone : (LookupPhase.request top).waiting - 1 = 0 := show (1 : UInt32) - 1 = 0 by decide
    simp only [h.waiting, hone]
    rfl
  closest _ he := by cases he
  exhausted _ he := by cases he
  valued he := by cases he
  noValue _ _ := h.noValue (by simp) (by simp)
  started := h.started

/-- The lookup ends: it keeps its progress until its finder is erased. -/
theorem finish (h : Progress t v nf φ) (hφ : φ.waiting = 0) (hin : φ.inFlight = []) {contacted : List BucketEntry}
    (hc : contacted.Perm nf.contacted) : Progress t v { nf with contacted := contacted } .closing where
  seen := h.seen
  offered := h.offered
  partition := h.partition
  entries := h.entries
  replies _ h2 := absurd rfl h2
  outcomes := by
    have hout := h.outcomes
    rw [hin] at hout
    exact hout
  contacted := hc.trans h.contacted
  waiting := h.waiting.trans hφ
  closest _ he := by cases he
  exhausted _ he := by cases he
  valued he := by cases he
  noValue _ h2 := absurd rfl h2
  started := h.started

/-- Nobody is asked twice. -/
theorem asked_nodup (h : Progress t v nf φ) : (v.asked.map (·.key)).Nodup := by
  have hnodup := h.partition.nodup_iff.2 h.seen
  rw [List.map_append] at hnodup
  exact hnodup.of_append_right

/-- Whoever was asked was offered before. -/
theorem asked_offered (h : Progress t v nf φ) : ∀ e ∈ v.asked, e ∈ v.offered :=
  fun e he => h.entries e (List.mem_append_right _ he)

/-- The contacts that replied have different keys. -/
theorem contacted_nodup (h : Progress t v nf φ) : (nf.contacted.map (·.key)).Nodup := by
  have hasked := (h.outcomes.map (·.key)).nodup_iff.1 h.asked_nodup
  rw [List.append_assoc, List.map_append] at hasked
  exact (h.contacted.map (·.key)).nodup_iff.2 hasked.of_append_left

/-- With nobody left to ask, everybody who was offered was asked. -/
theorem asked_of_offered (h : Progress t v nf φ) (hun : nf.uncontacted = []) :
    ∀ e ∈ v.offered, e.key ∈ v.asked.map (·.key) := by
  intro e he
  have hseen := (h.offered e.key).2 (List.mem_map_of_mem he)
  rwa [← h.partition.mem_iff, hun, List.nil_append] at hseen

end Progress

end Dhtsim
