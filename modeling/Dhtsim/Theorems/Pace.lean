import Dhtsim.Lemmas.Pace
import Dhtsim.Theorems.Correlation
import Dhtsim.Theorems.Exhaustive

/-!
# Lookups among inhabitants

Among inhabitants a lookup ends in time, and finds everybody whom it hears of.
-/

namespace Dhtsim

open CallMachine KademliaNode

/-- The steps of a network that is used as its nodes expect, among inhabitants, as long as `Time` does not wrap: those that are `calm`
and in which each node is added once, with an address that no node ever had, and whoever asks something of a node names others and
observes them by their own keys. -/
def calmNetwork {N : Nat} (m : NetworkConfig N) (l : NetworkLabel N) : Bool := calm m l && properNetwork m l

namespace PaceAux

open AnsweredAux NetworkCall

variable {N : Nat} {Γ : Ctx} {config : Fin N → Config} {key : Fin N → KademliaKey} {offset : Fin N → Time} {limit : UInt32}
  {ok : NetworkConfig N → NetworkLabel N → Prop} {i : Fin N} {t : KademliaKey} {m : NetworkConfig N}

/-- Whom a call asks is a contact that the call has. -/
theorem hasContact_of_asks {c : Call} {e : BucketEntry} (h : e ∈ c.asks t) : c.HasContact e := by
  unfold Call.asks at h
  split at h
  · rename_i msg cb mr time
    obtain ⟨fn, hfn, hmem⟩ := List.mem_flatMap.1 h
    cases fn with
    | findSuccess t' top =>
      simp only [SendFn.asks] at hmem
      split at hmem
      · rw [List.mem_singleton.1 hmem]
        exact .asks (.findSuccess t' top) (List.mem_append_left _ hfn) rfl
      · cases hmem
    | _ => cases hmem
  · cases h

/-- Whom the lookup of a node asked are others, and the node is part of the network. -/
theorem asked_of_run (hΓ : Γ.Decodes) (hok : ∀ m l, ok m l → freshNetworkTags m l = true ∧ properUse m l = true) (i : Fin N)
    (t : KademliaKey) (h : Run (networkProgram Γ N) ok (startNetwork config key offset limit) m) :
    ∀ e ∈ askedBy i t m.trace, Contact key m i e ∧ addressOf m i ≠ 0 := by
  refine (honestState_of_run hΓ hok h).1.invariant (I := fun m => ∀ e ∈ askedBy i t m.trace, Contact key m i e ∧ addressOf m i ≠ 0)
    (fun e he => absurd he List.not_mem_nil) ?_
  intro m l m' hr hI hl hs e he
  have hsettled : Settled m m' := HonestyAux.settled_of_run hok (fun _ _ h => h.1) hr (Run.refl.step hl hs.step_eq)
  have hA : AddressState m := addressState_of_run (fun m l h => addedOnce_of_properUse (hok m l h.1).2) hr
  have hold : Contact key m i e ∧ addressOf m i ≠ 0 → Contact key m' i e ∧ addressOf m' i ≠ 0 :=
    fun h => ⟨h.1.mono hsettled, (hsettled i h.2).symm ▸ h.2⟩
  cases hs with
  | @run ch x rest w tr w' cs hw hexec =>
    by_cases hx : x = .app i (.eraseFinder t)
    · subst hx
      rw [askedBy_erase] at he
      cases he
    · rw [askedBy_cons hx] at he
      refine hold ?_
      rcases List.mem_append.1 he with he | he
      · exact hI e he
      · obtain ⟨c, hc, hasks⟩ := List.mem_flatMap.1 he
        obtain rfl := eq_app_of_mem_within hc
        have hne : c ≠ .base .die := by
          rintro rfl
          cases hasks
        exact ⟨(hl.2.calls i c List.mem_cons_self).contacts e (hasContact_of_asks hasks),
          hA.subject _ List.mem_cons_self i (if_neg hne)⟩
  | event | reentry | leave => exact hold (hI e he)

/-- The inhabitants but one node are at least as many as other keys that they have. -/
theorem length_le_inhabitants (hR : ResidentState m) {l : List KademliaKey} (hnodup : l.Nodup)
    (hl : ∀ k ∈ l, (∃ j, addressOf m j ≠ 0 ∧ key j = k) ∧ k ≠ key i ∧ addressOf m i ≠ 0) :
    l.length ≤ m.state.inhabitants.entries.length - 1 := by
  cases l with
  | nil => exact Nat.zero_le _
  | cons k₀ l =>
    have hi : (addressOf m i, i) ∈ m.state.inhabitants.entries :=
      SortedMap.find?_eq_some_iff.1 (hR.resides i (hl k₀ List.mem_cons_self).2.2)
    have hsub : k₀ :: l ⊆ (m.state.inhabitants.entries.erase (addressOf m i, i)).map (fun e => key e.2) := by
      intro k hk
      obtain ⟨⟨j, hj, rfl⟩, hne, -⟩ := hl k hk
      have hji : (addressOf m j, j) ≠ (addressOf m i, i) := by
        intro heq
        exact hne (congrArg (fun e => key e.2) heq)
      have hmem : (addressOf m j, j) ∈ m.state.inhabitants.entries := SortedMap.find?_eq_some_iff.1 (hR.resides j hj)
      exact List.mem_map_of_mem ((List.mem_erase_of_ne hji).2 hmem)
    have hlength := (hnodup.subperm hsub).length_le
    rwa [List.length_map, List.length_erase_of_mem hi] at hlength

/-- Nobody times out where no failure callback of a request runs. -/
theorem timedOut_eq_nil {ntr : NodeTrace} (h : ∀ e ∈ ntr, ∀ fn msg, e.1 ≠ .base (.callback false fn msg)) :
    timedOutFor t ntr = [] := by
  induction ntr with
  | nil => rfl
  | cons e ntr ih =>
    have hnil : e.1.timesOut t = [] := by
      unfold Call.timesOut
      split
      · rename_i heq
        exact absurd heq (h e List.mem_cons_self _ _)
      · rfl
    rw [timedOutFor, sinceErase]
    split
    · rfl
    · rw [hnil, List.append_nil]
      exact ih (fun e he => h e (List.mem_cons_of_mem _ he))

/-- Whom a lookup asked was offered to it. -/
theorem queried_offered {lossy : Prop} {n : KademliaNode} {stack : List Call} {ntr : NodeTrace}
    (h : LookupState Γ lossy t n stack ntr) : ∀ e ∈ queriedFor t ntr, e ∈ offeredTo t ntr := by
  intro e he
  rcases h with ⟨-, -, hview⟩ | ⟨nf, φ, -, -, hp⟩
  · have hnil : queriedFor t ntr = [] := (List.append_eq_nil_iff.1 (congrArg LookupView.asked hview)).1
    rw [hnil] at he
    cases he
  · exact hp.asked_offered e (List.mem_append_left _ he)

/-- Nobody is asked twice by one lookup. -/
theorem asked_nodup_of_run (h : Run (networkProgram Γ N) (fun m l => calm m l = true) (startNetwork config key offset limit) m) :
    ((askedBy i t m.trace).map (·.key)).Nodup := by
  have hfresh := run_node_freshTags (fun m l hl => freshNetworkTags_of_amongInhabitants (amongInhabitants_of_calm hl).1) h i
  rcases lookupState_of_run False (fun _ _ hl => Or.inr hl) hfresh t with ⟨-, -, hview⟩ | ⟨nf, φ, -, -, hp⟩
  · have hnil : askedBy i t m.trace = [] := (List.append_eq_nil_iff.1 (congrArg LookupView.asked hview)).1
    rw [hnil]
    exact List.nodup_nil
  · have hnodup := hp.asked_nodup
    rw [lookupView, List.map_append] at hnodup
    exact hnodup.of_append_left

/-- Nobody whom a lookup asks times out. -/
theorem timedOut_of_run (hΓ : Γ.Decodes) (hlong : ∀ fm, 1 + keyLen + 4 ≤ (Γ.findNodes.write fm).length)
    (h : Run (networkProgram Γ N) (fun m l => calm m l = true) (startNetwork config key offset limit) m) :
    timedOutFor t (nodeConfig i m).trace = [] := by
  obtain ⟨μ, hsit⟩ := situation_of_run hΓ hlong h
  refine timedOut_eq_nil (fun e he fn msg heq => ?_)
  obtain ⟨ch, hmem, -⟩ := mem_of_runsIn he (by simp [heq]) (by simp [heq])
  have hgives := hsit.past _ hmem
  rw [heq] at hgives
  cases hgives

/-- What a lookup is about, for the node whose call runs next. -/
theorem lookupState_of_stack (h : Run (networkProgram Γ N) (fun m l => calm m l = true) (startNetwork config key offset limit) m)
    {c : Call} {rest : List (NetworkCall N)} (hstack : m.stack = .app i c :: rest) :
    LookupState Γ False t (m.state.applications i) (c :: rest.flatMap (within i)) (nodeConfig i m).trace := by
  have hfresh := run_node_freshTags (fun m l hl => freshNetworkTags_of_amongInhabitants (amongInhabitants_of_calm hl).1) h i
  have hnode : (nodeConfig i m).stack = c :: rest.flatMap (within i) := by
    rw [nodeConfig, hstack, List.flatMap_cons, within_app_self, List.singleton_append]
  exact hnode ▸ lookupState_of_run False (fun _ _ hl => Or.inr hl) hfresh t

/-- When a lookup ends without a value, everybody who was offered to it has replied. -/
theorem replied_of_exhausted (hΓ : Γ.Decodes) (hlong : ∀ fm, 1 + keyLen + 4 ≤ (Γ.findNodes.write fm).length)
    (h : Run (networkProgram Γ N) (fun m l => calm m l = true) (startNetwork config key offset limit) m) {c : Call}
    {rest : List (NetworkCall N)} (hstack : m.stack = .app i c :: rest) {fv : Bool}
    (hcall : (LookupAux.tracker t).ofCall c = [.exhausted fv]) (herases : c.erases = none) (hasks : c.asks t = []) :
    (∀ k, k ∈ (offeredTo t (nodeConfig i m).trace).map (·.key) ↔ k ∈ (repliedTo Γ t (nodeConfig i m).trace).map (·.1.key)) ∧
      (∀ r ∈ repliedTo Γ t (nodeConfig i m).trace, ∀ e ∈ r.2.nearest, e ∈ offeredTo t (nodeConfig i m).trace) ∧
      (∀ r ∈ repliedTo Γ t (nodeConfig i m).trace, (r.2.findValue && r.2.valueFound) = false) ∧
      (startedBy t (nodeConfig i m).trace).head? = some fv := by
  have hstate := lookupState_of_stack (t := t) h hstack
  obtain ⟨⟨hall, hreplies, hout, hno⟩, hstarted⟩ := ExhaustiveAux.exhausted_of_front fv hstate hcall herases hasks
  rw [timedOut_of_run hΓ hlong h, List.append_nil] at hout
  refine ⟨fun k => ?_, hreplies, hno, hstarted⟩
  have hperm : ((queriedFor t (nodeConfig i m).trace).map (·.key)).Perm ((repliedTo Γ t (nodeConfig i m).trace).map (·.1.key)) := by
    have hkeys := hout.map (·.key)
    rwa [List.map_map] at hkeys
  rw [← hperm.mem_iff]
  constructor
  · intro hk
    obtain ⟨e, he, rfl⟩ := List.mem_map.1 hk
    exact hall e he
  · intro hk
    obtain ⟨e, he, rfl⟩ := List.mem_map.1 hk
    exact List.mem_map_of_mem (queried_offered hstate e he)

end PaceAux

open PaceAux AnsweredAux NetworkCall

/-- A lookup ends in time. In a run in which no node dies or is removed, each node is added once, no limit of a queue or of a link
is hit, `Time` does not wrap, tags and addresses are drawn fresh, and whoever asks something of a node names other inhabitants, and
observes them by their own keys: a lookup that is underway has seen two ticks at most for each contact that it asked; whom it asked
are other inhabitants, each by its key, and none of them twice. So it is over after two ticks for each other inhabitant, whatever the
replies list and whatever else its node is asked meanwhile. -/
theorem lookup_in_time {N : Nat} {Γ : Ctx} (hΓ : Γ.Decodes) (hlong : ∀ fm, 1 + keyLen + 4 ≤ (Γ.findNodes.write fm).length)
    {config : Fin N → Config} {key : Fin N → KademliaKey} {offset : Fin N → Time} {limit : UInt32} {m : NetworkConfig N}
    (h : Run (networkProgram Γ N) (fun m l => calmNetwork m l = true) (startNetwork config key offset limit) m) (i : Fin N)
    (t : KademliaKey) :
    ticksLooking i t m.trace ≤ 2 * (askedBy i t m.trace).length ∧
      ((askedBy i t m.trace).map (·.key)).Nodup ∧
      (∀ e ∈ askedBy i t m.trace, ∃ j, m.state.inhabitants.find? e.address = some j ∧ j ≠ i ∧
        (m.state.applications j).key = e.key) ∧
      (askedBy i t m.trace).length ≤ m.state.inhabitants.entries.length - 1 := by
  have hcalm : Run (networkProgram Γ N) (fun m l => calm m l = true) (startNetwork config key offset limit) m :=
    h.mono (fun m l hl => (Bool.and_eq_true_iff.1 hl).1)
  have hproper : ∀ m l, calmNetwork (N := N) m l = true → freshNetworkTags m l = true ∧ properUse m l = true :=
    fun m l hl => Bool.and_eq_true_iff.1 (Bool.and_eq_true_iff.1 hl).2
  have hR : ResidentState m := residentState_of_run (fun m l => nobodyLeaves_of_calm) hcalm
  refine ⟨(paced_of_run hΓ hlong i t hcalm).ticks, asked_nodup_of_run hcalm, fun e he => ?_, ?_⟩
  · obtain ⟨⟨⟨hne, j, hj, hkey⟩, hother⟩, -⟩ := asked_of_run hΓ hproper i t h e he
    have hresides := hR.resides j (hj.symm ▸ hne)
    refine ⟨j, hj ▸ hresides, ?_, (key_of_run h j).trans hkey⟩
    rintro rfl
    exact hother hkey.symm
  have hothers : ∀ k ∈ (askedBy i t m.trace).map (·.key), (∃ j, addressOf m j ≠ 0 ∧ key j = k) ∧ k ≠ key i ∧ addressOf m i ≠ 0 := by
    intro k hk
    obtain ⟨e, he, rfl⟩ := List.mem_map.1 hk
    obtain ⟨⟨⟨hne, j, hj, hkey⟩, hother⟩, hself⟩ := asked_of_run hΓ hproper i t h e he
    exact ⟨⟨j, hj.symm ▸ hne, hkey⟩, hother, hself⟩
  rw [← List.length_map (f := (·.key))]
  exact length_le_inhabitants hR (asked_nodup_of_run hcalm) hothers

/-- After the two nodes have met, node 0 looks for a key, and its request is underway when the next tick ends. -/
def lookupAfterMeeting : List (NetworkLabel 2) :=
  pingAfterTick 0 1 ++ [.enter .tick] ++ networkRuns 0 68 38 ++ [.enter (.app 0 (.lookup false (.starting 3) .empty))] ++
    networkRuns 0 107 3 ++ [.enter .tick] ++ networkRuns 0 111 26

theorem lookup_in_time_sample : ∃ m : NetworkConfig 2, ticksLooking 0 (.starting 3) m.trace = 1 ∧
    ((askedBy 0 (.starting 3) m.trace).map (·.key)).Nodup ∧
      (∀ e ∈ askedBy 0 (.starting 3) m.trace, ∃ j, m.state.inhabitants.find? e.address = some j ∧ j ≠ 0 ∧
        (m.state.applications j).key = e.key) ∧
      (askedBy 0 (.starting 3) m.trace).length ≤ m.state.inhabitants.entries.length - 1 := by
  obtain ⟨m, hr, hm⟩ := exists_run_of_follow (networkProgram .reference 2) calmNetwork (sampleNetwork 1024)
    lookupAfterMeeting (fun m : NetworkConfig 2 => decide (ticksLooking 0 (.starting 3) m.trace = 1)) (by decide +kernel)
  exact ⟨m, of_decide_eq_true hm, (lookup_in_time Ctx.reference_decodes Ctx.reference_findNodes_length hr 0 (.starting 3)).2⟩

/-- A lookup finds everybody whom it hears of. In a run in which no node dies or is removed, no inhabitant is added again, no limit of
a queue or of a link is hit, `Time` does not wrap, the tags that are drawn are not zero and differ, and whoever asks something of a
node asks an inhabitant and names inhabitants, nobody whom it asks times out, so when it ends without a value, everybody who was
offered has replied, also those whom a reply listed, and no reply carried a value. Whatever a lookup ends with by `findNodesFinish`
lists the keys that were offered, all of them and no others, each once and the closest first. -/
theorem lookup_complete {N : Nat} {Γ : Ctx} (hΓ : Γ.Decodes) (hlong : ∀ fm, 1 + keyLen + 4 ≤ (Γ.findNodes.write fm).length)
    {config : Fin N → Config} {key : Fin N → KademliaKey} {offset : Fin N → Time} {limit : UInt32} {m : NetworkConfig N}
    (h : Run (networkProgram Γ N) (fun m l => calm m l = true) (startNetwork config key offset limit) m) (i : Fin N)
    (t : KademliaKey) :
    timedOutFor t (nodeConfig i m).trace = [] ∧
    ∀ c rest, m.stack = .app i c :: rest → c = .findNodesFail t ∨ c = .findNodesFinish t →
      (∀ k, k ∈ (offeredTo t (nodeConfig i m).trace).map (·.key) ↔ k ∈ (repliedTo Γ t (nodeConfig i m).trace).map (·.1.key)) ∧
      (∀ r ∈ repliedTo Γ t (nodeConfig i m).trace, ∀ e ∈ r.2.nearest, e ∈ offeredTo t (nodeConfig i m).trace) ∧
      (∀ r ∈ repliedTo Γ t (nodeConfig i m).trace, (r.2.findValue && r.2.valueFound) = false) ∧
      ∀ ch m', c = .findNodesFinish t → step (networkProgram Γ N) m (.run ch) = some m' →
        ∃ nf result, m'.stack = (complete nf t true result).map (.app i) ++ rest ∧
          (∀ k, k ∈ result.nearest.map (·.key) ↔ k ∈ (offeredTo t (nodeConfig i m).trace).map (·.key)) ∧
          result.nearest.Pairwise (fun a b => a.key.distanceTo t < b.key.distanceTo t) := by
  refine ⟨timedOut_of_run hΓ hlong h, fun c rest hstack hc => ?_⟩
  obtain ⟨fv, hcall, herases, hasks⟩ : ∃ fv, (LookupAux.tracker t).ofCall c = [.exhausted fv] ∧ c.erases = none ∧ c.asks t = [] := by
    rcases hc with rfl | rfl
    · exact ⟨true, if_pos rfl, rfl, rfl⟩
    · exact ⟨false, if_pos rfl, rfl, rfl⟩
  obtain ⟨hkeys, hreplies, hno, -⟩ := replied_of_exhausted hΓ hlong h hstack hcall herases hasks
  have hstate := lookupState_of_stack (t := t) h hstack
  refine ⟨hkeys, hreplies, hno, ?_⟩
  rintro ch m' rfl hs
  obtain ⟨nf, hf, -, hp⟩ := ExhaustiveAux.progress_of_front hstate (φ := .exhausted false) (if_pos rfl) rfl
  obtain ⟨w, stack, tr⟩ := m
  subst hstack
  cases step_of_eq_some hs with
  | run hw he =>
    obtain ⟨q, hexec, heq⟩ := CentralizedNetwork.exec_app he
    obtain ⟨-, rfl⟩ := Prod.mk.inj heq
    obtain ⟨nf', hf', -, hcs⟩ := findNodesFinish_eq hexec
    cases hf.symm.trans hf'
    refine ⟨nf, finishResult (sortByDistanceTo Γ t nf.contacted) ch.toChoice, ?_, fun k => ?_, ?_⟩
    · rw [hcs]
    · have hperm : (sortByDistanceTo Γ t nf.contacted).Perm _ := (Γ.sort_perm _ _).trans hp.contacted
      have hsame := (hperm.map (·.key)).mem_iff (a := k)
      rw [List.map_map] at hsame
      exact hsame.trans (hkeys k).symm
    · exact strictSorted_sortByDistanceTo hp.contacted_nodup

/-- In the tick after that the lookup is about to hand on whom it found. -/
theorem lookup_complete_sample : ∃ (m : NetworkConfig 2) (rest : List (NetworkCall 2)),
    m.stack = .app 0 (.findNodesFinish (.starting 3)) :: rest ∧
      (∀ k, k ∈ (offeredTo (.starting 3) (nodeConfig 0 m).trace).map (·.key) ↔
        k ∈ (repliedTo .reference (.starting 3) (nodeConfig 0 m).trace).map (·.1.key)) ∧
      (offeredTo (.starting 3) (nodeConfig 0 m).trace).map (·.address) = [5] := by
  obtain ⟨m, hr, hm⟩ := exists_run_of_follow (networkProgram .reference 2) calm (sampleNetwork 1024)
    (lookupAfterMeeting ++ [.enter .tick] ++ networkRuns 0 137 30)
    (fun m : NetworkConfig 2 => decide (m.stack.head? = some (.app 0 (.findNodesFinish (.starting 3)))) &&
      decide ((offeredTo (.starting 3) (nodeConfig 0 m).trace).map (·.address) = [5])) (by decide +kernel)
  simp only [Bool.and_eq_true, decide_eq_true_eq] at hm
  obtain ⟨rest, hstack⟩ := List.head?_eq_some_iff.1 hm.1
  have hfound := (lookup_complete Ctx.reference_decodes Ctx.reference_findNodes_length hr 0 (.starting 3)).2 _ rest hstack
    (Or.inr rfl)
  exact ⟨m, rest, hstack, hfound.1, hm.2⟩

end Dhtsim
