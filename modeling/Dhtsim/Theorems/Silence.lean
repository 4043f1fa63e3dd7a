import Dhtsim.Lemmas.NetworkCalls
import Dhtsim.Model.Outside

/-!
# Dead nodes

A dead node is still ticked, with the epoch it died in, and the network still takes the messages in its queue. What holds is
that it does nothing when it died with no message to send, with no entry that its maintenance would erase and with no bucket
that it would refresh in the epoch it died in.
-/

namespace Dhtsim

open CallMachine

/-- What a dead node shows of itself. -/
structure Unchanged (n₀ n : KademliaNode) : Prop where
  buckets : n.buckets = n₀.buckets
  table : n.table = n₀.table
  nodesBeingFound : n.nodesBeingFound = n₀.nodesBeingFound
  pingsInProgress : n.pingsInProgress = n₀.pingsInProgress

/-- The network passes none of the messages of a node along, and in its epoch the node has nothing to erase or to refresh. -/
structure NothingLeft (limit : UInt32) (n : KademliaNode) : Prop where
  outqueue : ∀ m ∈ n.outqueue, limit.toNat < m.data.length
  table : n.epoch % n.config.maintenancePeriod = n.maintenanceOffset → ∀ e ∈ n.table.entries, n.expired e.2 = false
  buckets : n.epoch % n.config.bucketRefreshPeriod = n.maintenanceOffset % n.config.bucketRefreshPeriod →
    ∀ i, n.stale (n.buckets i) = false

/-- Nobody calls a public function of the node. -/
def leavesAlone {N : Nat} (i : Fin N) (_ : NetworkConfig N) (l : NetworkLabel N) : Prop := ∀ c, l ≠ .enter (.app i c)

namespace SilenceAux

open KademliaNode

/-- A dead node and how it was when it died: only the messages that come in, its address and its counters may differ, and the
network may have taken messages from it. -/
structure Frozen (n₀ n : KademliaNode) : Prop extends Unchanged n₀ n where
  dead : n.dead = true
  epoch : n.epoch = n₀.epoch
  config : n.config = n₀.config
  maintenanceOffset : n.maintenanceOffset = n₀.maintenanceOffset
  outqueue : n.outqueue <:+ n₀.outqueue

/-- The calls that a node runs after its death, when nothing is left to do. -/
def Quiet (n₀ : KademliaNode) : Call → Prop
  | .tick _ => True
  | .base (.tick _) => True
  | .base (.recv _) => True
  | .base (.send _ callback _ _) => callback = .empty
  | .maintenanceCheck => True
  | .runTableMaintenance => ∀ e ∈ n₀.table.entries, n₀.expired e.2 = false
  | .storeAt _ _ => True
  | .refreshCheck => True
  | .refreshBuckets _ => ∀ i, n₀.stale (n₀.buckets i) = false
  | .refreshLoop _ _ _ => ∀ i, n₀.stale (n₀.buckets i) = false
  | _ => False

variable {Γ : Ctx} {ch : Choice} {n₀ n : KademliaNode} {c : Call} {p : KademliaNode × List Call}

theorem Frozen.expired (h : Frozen n₀ n) (e : TableEntry) : n.expired e = n₀.expired e := by
  simp only [KademliaNode.expired, h.epoch, h.config]

theorem Frozen.stale (h : Frozen n₀ n) (b : List BucketEntry) : n.stale b = n₀.stale b := by
  simp only [KademliaNode.stale, h.epoch, h.config]

/-- A dead node stays as it is, and makes only calls that leave it so. -/
theorem frozen_exec {limit : UInt32} (hleft : NothingLeft limit n₀) (h : Frozen n₀ n) (hc : Quiet n₀ c)
    (he : exec Γ ch c n = some p) : Frozen n₀ p.1 ∧ ∀ y ∈ p.2, Quiet n₀ y := by
  have hnothing : Frozen n₀ (n, ([] : List Call)).1 ∧ ∀ y ∈ (n, ([] : List Call)).2, Quiet n₀ y :=
    ⟨h, fun y hy => absurd hy List.not_mem_nil⟩
  cases c with
  | base b =>
    cases b with
    | tick t =>
      have hstop : n.execBase Γ ch (.tick t) = (n, []) := by
        simp [execBase, BaseApplication.exec, h.dead, setBase]
      cases he
      rw [hstop]
      exact hnothing
    | recv m =>
      cases he
      change Frozen n₀ (n.setBase (n.toBaseApplication.queueIn m)) ∧ ∀ y ∈ [], Quiet n₀ y
      rw [BaseApplication.queueIn_eq]
      exact ⟨⟨⟨h.buckets, h.table, h.nodesBeingFound, h.pingsInProgress⟩, h.dead, h.epoch, h.config, h.maintenanceOffset,
        h.outqueue⟩, fun y hy => absurd hy List.not_mem_nil⟩
    | send m cb r t =>
      obtain rfl : cb = .empty := hc
      have hstop : n.execBase Γ ch (.send m .empty r t) = (n, []) := by
        simp only [execBase, BaseApplication.exec, BaseApplication.send_of_dead h.dead]
        rfl
      cases he
      rw [hstop]
      exact hnothing
    | _ => exact absurd hc not_false
  | tick t =>
    cases he
    refine ⟨h, fun y hy => ?_⟩
    simp only [List.mem_cons, List.not_mem_nil, or_false] at hy
    rcases hy with rfl | rfl | rfl <;> trivial
  | maintenanceCheck =>
    simp only [exec, Option.ite_none_left_eq_some] at he
    obtain ⟨-, heq⟩ := he
    cases heq
    refine ⟨h, fun y hy => ?_⟩
    split_ifs at hy with hdue
    · rw [List.mem_singleton.1 hy]
      rw [h.epoch, h.config, h.maintenanceOffset] at hdue
      exact hleft.table hdue
    · cases hy
  | runTableMaintenance =>
    have hkeep : n.table.filter (fun e => !n.expired e.2) = n.table := by
      refine SortedMap.filter_eq_self (fun e hmem => ?_)
      rw [h.expired, hc e (h.table ▸ hmem)]
      rfl
    cases he
    refine ⟨?_, fun y hy => ?_⟩
    · simp only [runTableMaintenance, hkeep]
      exact h
    · simp only [runTableMaintenance, List.mem_flatMap] at hy
      obtain ⟨e, -, hy⟩ := hy
      split_ifs at hy
      · obtain ⟨entry, -, rfl⟩ := List.mem_map.1 hy
        trivial
      · cases hy
  | storeAt a v =>
    cases he
    refine ⟨h, fun y hy => ?_⟩
    rw [List.mem_singleton.1 hy]
    rfl
  | refreshCheck =>
    simp only [exec, Option.ite_none_left_eq_some] at he
    obtain ⟨-, heq⟩ := he
    cases heq
    refine ⟨h, fun y hy => ?_⟩
    split_ifs at hy with hdue
    · rw [List.mem_singleton.1 hy]
      rw [h.epoch, h.config, h.maintenanceOffset] at hdue
      exact hleft.buckets hdue
    · cases hy
  | refreshBuckets cb =>
    cases he
    refine ⟨⟨⟨h.buckets, h.table, h.nodesBeingFound, h.pingsInProgress⟩, h.dead, h.epoch, h.config, h.maintenanceOffset,
      h.outqueue⟩, fun y hy => ?_⟩
    rw [List.mem_singleton.1 hy]
    exact hc
  | refreshLoop i cb k =>
    cases he
    unfold KademliaNode.refreshLoop
    split_ifs with hi hstale
    · rw [h.stale, h.buckets, hc ⟨i, hi⟩] at hstale
      cases hstale
    · refine ⟨h, fun y hy => ?_⟩
      rw [List.mem_singleton.1 hy]
      exact hc
    · exact hnothing
  | _ => exact absurd hc not_false

variable {N : Nat} {i : Fin N} {ch : NetworkChoice} {w w' : CentralizedNetwork N} {x : NetworkCall N}
  {cs : List (NetworkCall N)}

/-- The calls of the node, and those the network makes to it, are such that leave it as it is. -/
def QuietAt (i : Fin N) (n₀ : KademliaNode) (x : NetworkCall N) : Prop := ∀ c, x = .app i c ∨ x = .call i c → Quiet n₀ c

theorem frozen_network {limit : UInt32} (hleft : NothingLeft limit n₀) (h : Frozen n₀ (w.applications i)) (hx : QuietAt i n₀ x)
    (he : CentralizedNetwork.exec Γ ch x w = some (w', cs)) : Frozen n₀ (w'.applications i) ∧ ∀ y ∈ cs, QuietAt i n₀ y := by
  refine ⟨?_, fun y hy c hc => ?_⟩
  · rcases CentralizedNetwork.applications_cases he i with heq | ⟨c, q, rfl, hq, heq⟩ | ⟨total, -, heq⟩ | ⟨a, -, heq⟩ <;>
      rw [heq]
    · exact h
    · exact (frozen_exec hleft h (hx c (Or.inl rfl)) hq).1
    · exact ⟨⟨h.buckets, h.table, h.nodesBeingFound, h.pingsInProgress⟩, h.dead, h.epoch, h.config, h.maintenanceOffset,
        (List.tail_suffix _).trans h.outqueue⟩
    · exact ⟨⟨h.buckets, h.table, h.nodesBeingFound, h.pingsInProgress⟩, h.dead, h.epoch, h.config, h.maintenanceOffset,
        h.outqueue⟩
  · have hmakes := CentralizedNetwork.exec_makes he y hy
    rcases hc with rfl | rfl
    · cases hmakes with
      | @inside _ d _ _ =>
        obtain ⟨q, hq, heq⟩ := CentralizedNetwork.exec_app he
        cases heq
        obtain ⟨z, hz, hcz⟩ := List.mem_map.1 hy
        cases hcz
        exact (frozen_exec hleft h (hx d (Or.inl rfl)) hq).2 _ hz
      | handOn => exact hx c (Or.inr rfl)
    · cases hmakes with
      | tick | recv | catchUp => trivial
      | sendAgain => rfl

/-- What comes in is not a call of the node. -/
theorem quietAt_of_enter {m : NetworkConfig N} (hok : leavesAlone i m (.enter x))
    (hx : (networkProgram Γ N).event x = true ∨ (networkProgram Γ N).reentry x = true) : QuietAt i n₀ x := by
  rintro c (rfl | rfl)
  · exact absurd rfl (hok c)
  · rcases hx with hx | hx <;> cases hx

end SilenceAux

open SilenceAux

/-- A dead node with nothing left to do does nothing: in every run in which nobody calls it, its buckets, its table, its lookups
and its pings stay as they are, and the loop over its outbound messages passes nothing along. -/
theorem dead_node_silent {N : Nat} {Γ : Ctx} {i : Fin N} {m₀ m : NetworkConfig N} (hidle : m₀.stack = [])
    (hdead : (m₀.state.applications i).dead = true) (hleft : NothingLeft m₀.state.linkLimit (m₀.state.applications i))
    (h : Run (networkProgram Γ N) (leavesAlone i) m₀ m) :
    Unchanged (m₀.state.applications i) (m.state.applications i) ∧
      ∀ ch total rest m', m.stack = .outbound i total :: rest → step (networkProgram Γ N) m (.run ch) = some m' →
        m'.stack = rest := by
  have hfrozen : (Frozen (m₀.state.applications i) (m.state.applications i) ∧ m.state.linkLimit = m₀.state.linkLimit) ∧
      ∀ x ∈ m.stack, QuietAt i (m₀.state.applications i) x := by
    refine h.invariant_stack
      (S := fun w => Frozen (m₀.state.applications i) (w.applications i) ∧ w.linkLimit = m₀.state.linkLimit)
      (C := fun _ x => QuietAt i (m₀.state.applications i) x) ⟨⟨?_, rfl⟩, by simp [hidle]⟩ ?_ ?_
    · exact ⟨⟨rfl, rfl, rfl, rfl⟩, hdead, rfl, rfl, rfl, List.suffix_rfl⟩
    · rintro ch x rest w tr w' cs ⟨hw, hlimit⟩ hx hrest - he
      obtain ⟨hw', hcs⟩ := frozen_network hleft hw hx he
      have hlimit' : w'.linkLimit = w.linkLimit := by
        have hch : NetworkChanges Γ ch w x w' := CentralizedNetwork.exec_changes he
        cases hch <;> rfl
      exact ⟨⟨hw', hlimit'.trans hlimit⟩, hcs, hrest⟩
    · rintro x w stack tr - hok hx
      exact quietAt_of_enter hok hx
  obtain ⟨⟨hsame, hlimit⟩, -⟩ := hfrozen
  refine ⟨hsame.toUnchanged, fun ch total rest m' hstack hs => ?_⟩
  obtain ⟨w, stack, tr⟩ := m
  obtain rfl : stack = .outbound i total :: rest := hstack
  have hs := step_of_eq_some hs
  cases hs with
  | @run _ _ _ _ _ w' cs hw he =>
    have hnone : (w.outbound i total).2 = [] := by
      unfold CentralizedNetwork.outbound
      cases hq : (w.applications i).outqueue with
      | nil => rfl
      | cons msg queue =>
        have hmem : msg ∈ (m₀.state.applications i).outqueue := hsame.outqueue.subset (hq ▸ List.mem_cons_self)
        have hlarge : w.linkLimit.toNat < msg.data.length := hlimit ▸ hleft.outqueue msg hmem
        simp [hlarge]
    obtain rfl : (w.outbound i total).2 = cs := congrArg Prod.snd (Option.some.inj he)
    rw [hnone]
    rfl

/-- A node joins, learns of a contact, does what comes next and dies. -/
def joinsAndDies {N : Nat} (i : Fin N) (next : List (NetworkLabel N)) : List (NetworkLabel N) :=
  [.enter (.add i)] ++ networkRuns 5 1 9 ++ [.enter (.app i (.observe 7 (.starting 128)))] ++ networkRuns 0 19 1 ++ next ++
    [.enter (.app i (.base .die))] ++ networkRuns 0 25 1

/-- The check for a step that it is not a call of a public function. -/
def callsNobody {N : Nat} (_ : NetworkConfig N) : NetworkLabel N → Bool
  | .enter (.app _ _) => false
  | _ => true

theorem leavesAlone_of_callsNobody {N : Nat} {i : Fin N} {m : NetworkConfig N} {l : NetworkLabel N}
    (h : callsNobody m l = true) : leavesAlone i m l := by
  rintro c rfl
  cases h

/-- The network ticks on after a node died, and the node keeps its contact. -/
theorem dead_node_silent_sample : ∃ m₀ m : NetworkConfig 1, (m₀.state.applications 0).dead = true ∧
    m₀.state.epoch = 0 ∧ m.state.epoch = 1 ∧ ((m₀.state.applications 0).buckets ⟨0, by decide⟩).length = 1 ∧
      Run (networkProgram .reference 1) (leavesAlone 0) m₀ m ∧
        Unchanged (m₀.state.applications 0) (m.state.applications 0) := by
  obtain ⟨m₀, -, hm₀⟩ := exists_run_of_follow (networkProgram .reference 1) (fun _ _ => true)
    (sampleNetwork 1024) (joinsAndDies 0 [])
    (fun m₀ : NetworkConfig 1 => (decide (m₀.stack = []) && (m₀.state.applications 0).dead &&
      decide ((m₀.state.applications 0).outqueue = []) && decide ((m₀.state.applications 0).table.entries = []) &&
      (List.finRange keyLenBits).all (fun b => !(m₀.state.applications 0).stale ((m₀.state.applications 0).buckets b)) &&
      decide (m₀.state.epoch = 0) && decide (((m₀.state.applications 0).buckets ⟨0, by decide⟩).length = 1)) &&
      (follow (networkProgram .reference 1) callsNobody m₀ ([.enter .tick] ++ networkRuns 0 40 10)).any
        (fun m : NetworkConfig 1 => decide (m.state.epoch = 1)))
    (by decide +kernel)
  simp only [Bool.and_eq_true, decide_eq_true_eq, List.all_eq_true, Bool.not_eq_true'] at hm₀
  obtain ⟨⟨⟨⟨⟨⟨⟨hidle, hdead⟩, hqueue⟩, htable⟩, hstale⟩, hepoch₀⟩, hcontact⟩, htick⟩ := hm₀
  obtain ⟨m, hm, hepoch⟩ := exists_run_of_follow _ _ m₀ _ _ htick
  have hleft : NothingLeft m₀.state.linkLimit (m₀.state.applications 0) :=
    ⟨by simp [hqueue], by simp [htable], fun _ b => hstale b (List.mem_finRange b)⟩
  have hquiet : Run (networkProgram .reference 1) (leavesAlone 0) m₀ m :=
    hm.mono (fun _ _ => leavesAlone_of_callsNobody)
  exact ⟨m₀, m, hdead, hepoch₀, of_decide_eq_true hepoch, hcontact, hquiet, (dead_node_silent hidle hdead hleft hquiet).1⟩

/-- A message of the node is about to be passed along, the first one of the turn, and its bytes are `total`. -/
def passesFirst {N : Nat} (i : Fin N) (total : Nat) (queue : List (Message UInt32)) (m : NetworkConfig N) : Bool :=
  match m.stack with
  | .passAlongMessage msg :: .outbound j t :: _ => decide (j = i ∧ t = total ∧ msg ∈ queue)
  | _ => false

/-- A node that dies with a ping in its queue still sends it: the network passes it along in the next tick. -/
theorem dead_node_silent_false : ∃ m₀ m : NetworkConfig 1, ∃ msg rest,
    Run (networkProgram .reference 1) anyStep (sampleNetwork 1024) m₀ ∧
    m₀.stack = [] ∧ (m₀.state.applications 0).dead = true ∧ Run (networkProgram .reference 1) (leavesAlone 0) m₀ m ∧
    m.stack = .passAlongMessage msg :: .outbound 0 21 :: rest ∧ msg ∈ (m₀.state.applications 0).outqueue := by
  obtain ⟨m₀, hr, hm₀⟩ := exists_run_of_follow (networkProgram .reference 1) (fun _ _ => true) (sampleNetwork 1024)
    (joinsAndDies 0 ([.enter (.app 0 (.ping 7 .empty))] ++ networkRuns 0 20 2))
    (fun m₀ : NetworkConfig 1 => (decide (m₀.stack = []) && (m₀.state.applications 0).dead) &&
      (follow (networkProgram .reference 1) callsNobody m₀ ([.enter .tick] ++ networkRuns 0 40 8)).any
        (passesFirst 0 21 (m₀.state.applications 0).outqueue))
    (by decide +kernel)
  simp only [Bool.and_eq_true] at hm₀
  obtain ⟨⟨hidle, hdead⟩, htick⟩ := hm₀
  obtain ⟨m, hm, htop⟩ := exists_run_of_follow _ _ m₀ _ _ htick
  have hquiet : Run (networkProgram .reference 1) (leavesAlone 0) m₀ m :=
    hm.mono (fun _ _ => leavesAlone_of_callsNobody)
  unfold passesFirst at htop
  split at htop
  · rename_i msg i total rest hstack
    obtain ⟨rfl, rfl, hmem⟩ := of_decide_eq_true htop
    exact ⟨m₀, m, msg, rest, run_anyStep hr, of_decide_eq_true hidle, hdead, hquiet, hstack, hmem⟩
  · cases htop

end Dhtsim
