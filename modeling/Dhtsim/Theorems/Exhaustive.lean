import Dhtsim.Lemmas.Lookups
import Dhtsim.Model.Outside
import Mathlib.Data.List.Dedup
import Mathlib.Data.List.Perm.Subperm

/-!
# Lookups are exhaustive

A lookup asks every contact it hears of, each once and the closest first, and its result lists those who replied.
-/

namespace Dhtsim

open CallMachine KademliaNode

/-- Every reply echoes whether the request, and so the lookup that sent it, is for a value. -/
def echoes (Γ : Ctx) (m : NodeConfig) (l : NodeLabel) : Bool :=
  match l, m.stack with
  | .run ch, .base (.callback true (.findSuccess t _) msg) :: _ =>
    (m.state.nodesBeingFound.find? t).all (fun nf => (readFindNodes Γ ch msg).findValue = nf.findValue)
  | _, _ => true

namespace ExhaustiveAux

variable {Γ : Ctx} {lossy : Prop} {config : Config} {key t : KademliaKey} {offset : Time} {ch : Choice} {c : Call}
  {n : KademliaNode} {rest : List Call} {tr : NodeTrace} {m : NodeConfig}

/-- The replies to a lookup are of the kind that it was started as. -/
theorem echoed_of_run
    (h : Run (nodeProgram Γ) (fun m l => (freshTags m l && echoes Γ m l) = true) (startNode config key offset) m)
    (t : KademliaKey) : ∀ r ∈ repliedTo Γ t m.trace, (startedBy t m.trace).head? = some r.2.findValue := by
  intro r hr
  obtain ⟨findValue, hstarted, rfl⟩ := replied_of_run False (P := fun findValue fm => fm.findValue = findValue)
    (fun m l h => Or.inr (Bool.and_eq_true_iff.1 h).1) (fun n t top msg rest tr ch nf h hf => by
      have hecho := (Bool.and_eq_true_iff.1 h).2
      simpa [echoes, hf] using hecho) h t r hr
  exact hstarted

/-- A call on top of the stack that stands for a lookup finds its progress. -/
theorem progress_of_front {φ : LookupPhase} (hok : LookupState Γ lossy t n (c :: rest) tr) (hc : (LookupAux.tracker t).ofCall c = [φ])
    (herases : c.erases = none) : ∃ nf, n.nodesBeingFound.find? t = some nf ∧ rest.flatMap (Call.asks t) = [] ∧
      Progress t (lookupView Γ t (c :: rest) tr) nf φ := by
  have hpc : (LookupAux.tracker t).pending n (c :: rest) = φ :: (LookupAux.tracker t).pending n rest := by
    rw [Tracker.pending_cons herases, hc]
    rfl
  obtain ⟨nf, hf, hrest, hp⟩ := LookupAux.lookupState_front hok hpc
  exact ⟨nf, hf, LookupAux.asks_eq_nil_of_pending hrest, hp⟩

/-- Where a lookup is exhausted, all were asked and all requests have ended, without a value. -/
theorem exhausted_of_front (fv : Bool) (hok : LookupState Γ lossy t n (c :: rest) tr)
    (hc : (LookupAux.tracker t).ofCall c = [.exhausted fv]) (herases : c.erases = none) (hasks : c.asks t = []) :
    ((∀ e ∈ offeredTo t tr, e.key ∈ (queriedFor t tr).map (·.key)) ∧
      (∀ r ∈ repliedTo Γ t tr, ∀ e ∈ r.2.nearest, e ∈ offeredTo t tr) ∧
      (queriedFor t tr).Perm ((repliedTo Γ t tr).map (·.1) ++ timedOutFor t tr) ∧
      ∀ r ∈ repliedTo Γ t tr, (r.2.findValue && r.2.valueFound) = false) ∧ (startedBy t tr).head? = some fv := by
  obtain ⟨nf, hf, hrest, hp⟩ := progress_of_front hok hc herases
  obtain ⟨hun, hfv⟩ := hp.exhausted _ rfl
  have hasked : (lookupView Γ t (c :: rest) tr).asked = queriedFor t tr := by
    simp only [lookupView, List.flatMap_cons, hasks, hrest, List.append_nil]
  have hall := hp.asked_of_offered hun
  have hout := hp.outcomes
  have hstarted := hp.started
  rw [hasked] at hall hout
  rw [hfv] at hstarted
  have hno := hp.noValue (by simp) (by simp)
  refine ⟨⟨hall, ?_, ?_, hno⟩, hstarted⟩
  · intro r hr e he
    exact (List.mem_append.1 (hp.replies (by simp) (by simp) r hr e he)).resolve_right List.not_mem_nil
  · exact hout.trans (List.Perm.of_eq (List.append_nil _))

/-- The failure callbacks of a lookup run when it fails. -/
theorem makes_found_false {fn : FindNodesFn} {result : FindNodesMessage} (h : Makes Γ ch n c (.found false fn result)) :
    ∃ t, c = .findNodesFail t := by
  cases h with
  | failFound hf hfn => exact ⟨_, rfl⟩

end ExhaustiveAux

open ExhaustiveAux

/-- A lookup is exhaustive, in six parts, in the runs whose tags differ and whose replies echo the kind of the request. What was
offered, asked and answered counts since the last lookup for the target ended.
1. A lookup that starts is offered what `getNearest` returns.
2. Each request goes to an entry that was offered, no two to the same key, so that there are no more requests than keys.
3. A request is sent to the closest of those that have not been asked.
4. When the lookup ends without a value, everybody offered was asked, also those whom a reply listed; everybody asked has either
   replied or timed out; and no reply carried a value.
5. A lookup started by `findNodes` does not end otherwise than by `findNodesFinish`, and its result lists those who replied, in
   the strict order of their distances, and their number (of 32 bits).
6. A lookup fails only when started by `findValue` and in the situation of part 4; then no reply said that it had a value. -/
theorem lookup_exhaustive {Γ : Ctx} {config : Config} {key : KademliaKey} {offset : Time} {m : NodeConfig}
    (h : Run (nodeProgram Γ) (fun m l => (freshTags m l && echoes Γ m l) = true) (startNode config key offset) m)
    (t : KademliaKey) :
    (∀ fv cb rest ch m', m.stack = .lookup fv t cb :: rest → m.state.nodesBeingFound.find? t = none →
      step (nodeProgram Γ) m (.run ch) = some m' →
      m'.stack = .findNodesStep t (m.state.getNearest Γ m.state.config.k t m.state.key) :: rest) ∧
    ((∀ e ∈ queriedFor t m.trace, e ∈ offeredTo t m.trace) ∧ ((queriedFor t m.trace).map (·.key)).Nodup ∧
      (queriedFor t m.trace).length ≤ ((offeredTo t m.trace).map (·.key)).dedup.length) ∧
    (∀ msg cb mr time rest top, m.stack = .base (.send msg cb mr time) :: rest → .findSuccess t top ∈ cb.successFns →
      msg.type = MessageType.findNodes.code ∧ msg.destination = top.address ∧ top ∈ offeredTo t m.trace ∧
      top.key ∉ (queriedFor t m.trace).map (·.key) ∧
      ∀ e ∈ offeredTo t m.trace, e.key ∉ (queriedFor t m.trace).map (·.key) → top.key.distanceTo t ≤ e.key.distanceTo t) ∧
    (∀ c rest, m.stack = c :: rest → c = .findNodesFail t ∨ c = .findNodesFinish t →
      (∀ e ∈ offeredTo t m.trace, e.key ∈ (queriedFor t m.trace).map (·.key)) ∧
      (∀ r ∈ repliedTo Γ t m.trace, ∀ e ∈ r.2.nearest, e ∈ offeredTo t m.trace) ∧
      (queriedFor t m.trace).Perm ((repliedTo Γ t m.trace).map (·.1) ++ timedOutFor t m.trace) ∧
      ∀ r ∈ repliedTo Γ t m.trace, (r.2.findValue && r.2.valueFound) = false) ∧
    (∀ c rest, m.stack = c :: rest → (startedBy t m.trace).head? = some false →
      c ≠ .findNodesFail t ∧ (∀ v, c ≠ .findValueFinish t v) ∧
      ∀ ch m', c = .findNodesFinish t → step (nodeProgram Γ) m (.run ch) = some m' →
        ∃ nf result, m.state.nodesBeingFound.find? t = some nf ∧ m'.stack = complete nf t true result ++ rest ∧
          result.nearest.Perm ((repliedTo Γ t m.trace).map (·.1)) ∧
          result.nearest.Pairwise (fun a b => a.key.distanceTo t < b.key.distanceTo t) ∧
          result.numFound = UInt32.ofNat result.nearest.length) ∧
    (∀ c rest, m.stack = c :: rest →
      (c = .findNodesFail t →
        (startedBy t m.trace).head? = some true ∧ ∀ r ∈ repliedTo Γ t m.trace, r.2.valueFound = false) ∧
      ∀ ch p fn result, exec Γ ch c m.state = some p → .found false fn result ∈ p.2 → ∃ t', c = .findNodesFail t') := by
  have hstate : LookupState Γ False t m.state m.stack m.trace :=
    lookupState_of_run False (fun m l h => Or.inr (Bool.and_eq_true_iff.1 h).1) h t
  have hecho := echoed_of_run h t
  have hfrom := (fromRequests_of_run h).2
  obtain ⟨n, stack, tr⟩ := m
  simp only at hstate hecho hfrom ⊢
  refine ⟨?_, ?_, ?_, ?_, ?_, ?_⟩
  · rintro fv cb rest ch m' rfl hf hs
    cases step_of_eq_some hs with
    | run hw he =>
      simp only [nodeProgram, exec, lookup, hf, Option.some.injEq, Prod.mk.injEq] at he
      rw [← he.2]
      rfl
  · rcases hstate with ⟨-, -, hview⟩ | ⟨nf, φ, -, -, hp⟩
    · have hqueried : queriedFor t tr = [] := (List.append_eq_nil_iff.1 (congrArg LookupView.asked hview)).1
      rw [hqueried]
      exact ⟨fun e he => absurd he List.not_mem_nil, List.nodup_nil, Nat.zero_le _⟩
    · have hoffered : ∀ e ∈ queriedFor t tr, e ∈ offeredTo t tr :=
        fun e he => hp.asked_offered e (List.mem_append_left _ he)
      have hnodup : ((queriedFor t tr).map (·.key)).Nodup := by
        have hasked := hp.asked_nodup
        rw [lookupView, List.map_append] at hasked
        exact hasked.of_append_left
      refine ⟨hoffered, hnodup, ?_⟩
      have hsub : (queriedFor t tr).map (·.key) ⊆ ((offeredTo t tr).map (·.key)).dedup := by
        intro k hk
        obtain ⟨e, he, rfl⟩ := List.mem_map.1 hk
        exact List.mem_dedup.2 (List.mem_map_of_mem (hoffered e he))
      simpa using (hnodup.subperm hsub).length_le
  · rintro msg cb mr time rest top rfl hfn
    have hreq := hfrom _ List.mem_cons_self
    rcases hreq with rfl | ⟨hreq, -⟩
    · cases hfn
    · cases hreq with
      | ping cb htype hdata => cases List.mem_singleton.1 hfn
      | find t' top' fv htype hdest hdata =>
        cases List.mem_singleton.1 hfn
        have hcall : (LookupAux.tracker t).ofCall (.base (.send msg (.of (.findSuccess t top) (.findFailure t top)) mr time)) =
            [.request top] := by
          simp [Tracker.ofCall, Tracker.ofSet, CallbackSet.of, LookupAux.tracker]
        obtain ⟨nf, hf, hrest, hp⟩ := progress_of_front hstate hcall rfl
        have hasked : (lookupView Γ t (.base (.send msg (.of (.findSuccess t top) (.findFailure t top)) mr time) :: rest)
            tr).asked = queriedFor t tr ++ [top] := by
          simp [lookupView, hrest, Call.asks, CallbackSet.of, SendFn.asks]
        have hnodup := hp.asked_nodup
        have hoffered := hp.asked_offered
        have hpart := hp.partition
        rw [hasked, List.map_append] at hnodup
        rw [hasked] at hoffered hpart
        refine ⟨htype, hdest, hoffered top (by simp), ?_, ?_⟩
        · intro hmem
          exact (List.nodup_append.1 hnodup).2.2 _ hmem _ (List.mem_singleton_self _) rfl
        · intro e he hnot
          have hseen := hpart.mem_iff.2 ((hp.offered e.key).2 (List.mem_map_of_mem he))
          rw [List.map_append, List.map_append, List.mem_append, List.mem_append] at hseen
          rcases hseen with hun | hq | htop
          · obtain ⟨e', he', hkey⟩ := List.mem_map.1 hun
            rw [← hkey]
            exact hp.closest top rfl e' he'
          · exact absurd hq hnot
          · rw [List.map_singleton, List.mem_singleton] at htop
            rw [htop]
  · rintro c rest rfl (rfl | rfl)
    · exact (exhausted_of_front true hstate (if_pos rfl) rfl rfl).1
    · exact (exhausted_of_front false hstate (if_pos rfl) rfl rfl).1
  · rintro c rest rfl hstarted
    refine ⟨?_, ?_, ?_⟩
    · rintro rfl
      have htrue := (exhausted_of_front true hstate (if_pos rfl) rfl rfl).2
      rw [hstarted] at htrue
      cases htrue
    · rintro v rfl
      obtain ⟨nf, hf, -, hp⟩ := progress_of_front hstate (φ := .valued) (if_pos rfl) rfl
      obtain ⟨r, hr, hv⟩ := hp.valued rfl
      have hkind := hecho r hr
      rw [hstarted] at hkind
      rw [← Option.some.inj hkind] at hv
      cases hv
    · rintro ch m' rfl hs
      obtain ⟨nf, hf, -, hp⟩ := progress_of_front hstate (φ := .exhausted false) (if_pos rfl) rfl
      cases step_of_eq_some hs with
      | run hw he =>
        obtain ⟨nf', hf', -, hcs⟩ := findNodesFinish_eq he
        cases hf.symm.trans hf'
        refine ⟨nf, finishResult (sortByDistanceTo Γ t nf.contacted) ch, hf, congrArg (· ++ rest) hcs, ?_, ?_, rfl⟩
        · exact (Γ.sort_perm _ _).trans hp.contacted
        · exact strictSorted_sortByDistanceTo hp.contacted_nodup
  · rintro c rest rfl
    refine ⟨?_, fun ch p fn result he hmem => makes_found_false (exec_makes he _ hmem)⟩
    rintro rfl
    obtain ⟨⟨-, -, -, hno⟩, hstarted⟩ := exhausted_of_front true hstate (if_pos rfl) rfl rfl
    refine ⟨hstarted, fun r hr => ?_⟩
    have hkind := hecho r hr
    rw [hstarted] at hkind
    have hv := hno r hr
    rw [← Option.some.inj hkind, Bool.true_and] at hv
    exact hv

/-- A lookup whose first contact replies with another one, which times out. -/
def repliedLookup : List NodeLabel :=
  let reply : FindNodesMessage := ⟨.starting 128, false, false, .starting 3, 1, [⟨.starting 64, 6, 0⟩], false, []⟩
  [.enter (.observe 5 (.starting 128))] ++ runs 1 1 ++
    [.enter (.lookup false (.starting 3) (.of (.user 1) (.user 2)))] ++ runs 2 3 ++
    [.enter (.base (.handleMessage ⟨1, 5, 0, 4, Ctx.reference.findNodes.write reply⟩))] ++ runs 5 10 ++
    [.enter (.tick 2)] ++ runs 15 8 ++ [.enter (.tick 6)] ++ runs 23 6

/-- At the end of this lookup both contacts were asked, one replied and one timed out. -/
theorem lookup_exhaustive_sample : ∃ (m : NodeConfig) (rest : List Call), m.stack = .findNodesFinish (.starting 3) :: rest ∧
    (queriedFor (.starting 3) m.trace).map (·.address) = [5, 6] ∧
    (queriedFor (.starting 3) m.trace).Perm
      ((repliedTo .reference (.starting 3) m.trace).map (·.1) ++ timedOutFor (.starting 3) m.trace) := by
  obtain ⟨m, hr, hm⟩ := exists_run_of_follow (nodeProgram .reference) (fun m l => freshTags m l && echoes .reference m l)
    (sampleNode .zero) repliedLookup
    (fun m => decide (m.stack.head? = some (.findNodesFinish (.starting 3))) &&
      decide ((queriedFor (.starting 3) m.trace).map (·.address) = [5, 6])) (by decide +kernel)
  simp only [Bool.and_eq_true, decide_eq_true_eq] at hm
  obtain ⟨rest, hstack⟩ := List.head?_eq_some_iff.1 hm.1
  exact ⟨m, rest, hstack, hm.2, ((lookup_exhaustive hr (.starting 3)).2.2.2.1 _ rest hstack (Or.inr rfl)).2.2.1⟩

end Dhtsim
