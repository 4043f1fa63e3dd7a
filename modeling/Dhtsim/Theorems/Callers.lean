import Dhtsim.Lemmas.Callers
import Dhtsim.Model.Outside

/-!
# Every caller of a lookup is answered

No caller of `findNodes` or `findValue` is left hanging or answered twice.
-/

namespace Dhtsim

open CallMachine KademliaNode CallersAux

/-- No caller of a lookup is left hanging or answered twice, in five parts, in the runs whose tags differ and in which no lookup
is started while the callbacks of one for the same target run.
1. Between events each target with a finder waits for one contact, and the records hold one request of its lookup; they hold
   none of a target without a finder.
2. When the request of a lookup ends, in a reply or not, the counter it decrements is not zero.
3. Between events the finder of a target holds the functions of everybody who called for the target since a lookup for it last
   ended, and without a finder nobody has.
4. Everybody who called for a target is among these, or was answered when a lookup for the target ended.
5. The functions that have run, and those on the stack, are those of the callers that were answered, each as often: those for
   success where the lookup succeeded, those for failure where it failed. -/
theorem lookups_answered {Γ : Ctx} {config : Config} {key : KademliaKey} {offset : Time} {m : NodeConfig}
    (h : Run (nodeProgram Γ) (fun m l => (freshTags m l && noSelfLookup m l) = true) (startNode config key offset) m) :
    (m.stack = [] → ∀ t, match m.state.nodesBeingFound.find? t with
      | some nf => nf.waiting = 1 ∧ (lookupRecords t m.state).length = 1
      | none => lookupRecords t m.state = []) ∧
    (∀ ok fn msg rest t, m.stack = .base (.callback ok fn msg) :: rest → fn.lookupTarget = some t →
      ∃ nf, m.state.nodesBeingFound.find? t = some nf ∧ nf.waiting ≠ 0) ∧
    (m.stack = [] → ∀ t, match m.state.nodesBeingFound.find? t with
      | some nf => ∀ ok, nf.findNodesCallback.fns ok = (waitingFor t m.trace).flatMap (·.callback.fns ok)
      | none => waitingFor t m.trace = []) ∧
    (∀ t, ((callers m.trace).filter (fun x => decide (x.target = t))).Perm
      (((answered m.trace).map (·.2)).filter (fun x => decide (x.target = t)) ++ waitingFor t m.trace)) ∧
    (tally Call.answersLookup m).Perm (lookupsDue m.trace) := by
  have hstate := lookupState_of_run False (fun m l h => Or.inr (Bool.and_eq_true_iff.1 h).1) h
  have hself : ∀ m l, (freshTags m l && noSelfLookup m l) = true → noSelfLookup m l = true :=
    fun m l h => (Bool.and_eq_true_iff.1 h).2
  have hheld := held_of_run hself h
  refine ⟨fun hidle t => ?_, ?_, fun hidle t => ?_, fun t => callers_perm t m.trace, answered_of_run hself h⟩
  · have hidle' := hstate t
    rw [hidle] at hidle'
    rcases LookupAux.lookupState_idle (fromRequests_of_run h).1.2 hidle' with ⟨hf, hrec⟩ | ⟨nf, top, hf, hrec, hp⟩
    · rw [hf]
      exact hrec
    · rw [hf]
      exact ⟨hp.waiting, hrec⟩
  · intro ok fn msg rest t hstack ht
    have hfront := hstate t
    rw [hstack] at hfront
    have hcall : ∃ top, (LookupAux.tracker t).ofCall (.base (.callback ok fn msg)) = [.request top] := by
      cases fn with
      | findSuccess t' top => cases ht; exact ⟨top, if_pos rfl⟩
      | findFailure t' top => cases ht; exact ⟨top, if_pos rfl⟩
      | _ => cases ht
    obtain ⟨top, hcall⟩ := hcall
    have hpc : (LookupAux.tracker t).pending m.state (.base (.callback ok fn msg) :: rest) =
        (LookupAux.tracker t).ofCall (.base (.callback ok fn msg)) ++ (LookupAux.tracker t).pending m.state rest :=
      Tracker.pending_cons rfl
    rw [hcall, List.singleton_append] at hpc
    obtain ⟨nf, hf, -, hp⟩ := LookupAux.lookupState_front hfront hpc
    refine ⟨nf, hf, ?_⟩
    rw [hp.waiting]
    exact show (1 : UInt32) ≠ 0 by decide
  · have hidle' := hheld t
    rw [hidle] at hidle'
    rcases hidle' with ⟨hf, -, hw⟩ | ⟨hmem, -⟩ | ⟨nf, hf, -, hfns⟩
    · rw [hf]
      exact hw
    · exact absurd hmem List.not_mem_nil
    · rw [hf]
      exact hfns

/-- A `findNodes` and a `findValue` for one target, the second made while the first is in progress, then a tick for the retry of
the request to the only contact, and the tick in which it times out. -/
def joinedLookups : List NodeLabel :=
  [.enter (.observe 5 (.starting 128))] ++ runs 1 1 ++
    [.enter (.lookup false (.starting 3) (.of (.user 1) (.user 2)))] ++ runs 2 3 ++
    [.enter (.lookup true (.starting 3) (.of (.user 3) (.user 4)))] ++ runs 5 1 ++
    [.enter (.tick 2)] ++ runs 6 8 ++ [.enter (.tick 6)] ++ runs 14 8 ++ [.leave] ++ runs 22 1 ++ [.leave] ++ runs 23 5

/-- Two callers of one lookup: each is answered once. -/
theorem lookups_answered_sample : ∃ m : NodeConfig, m.stack = [] ∧ lookupsDue m.trace = [(true, .user 1), (true, .user 3)] ∧
    (tally Call.answersLookup m).Perm (lookupsDue m.trace) := by
  obtain ⟨m, hr, hm⟩ := exists_run_of_follow (nodeProgram .reference) (fun m l => freshTags m l && noSelfLookup m l)
    (sampleNode .zero) joinedLookups
    (fun m => m.stack.isEmpty && decide (lookupsDue m.trace = [(true, .user 1), (true, .user 3)])) (by decide +kernel)
  simp only [Bool.and_eq_true, List.isEmpty_iff, decide_eq_true_eq] at hm
  exact ⟨m, hm.1, hm.2, (lookups_answered hr).2.2.2.2⟩

end Dhtsim
