import Dhtsim.Lemmas.Course
import Dhtsim.Theorems.Accounting

/-!
# The program keeps to the rules of the network

The whole program, with `main` and the experiment, against the network that it uses: what it does with the network is a run of the
network in which every node is added once, used only while it lives there, and asked to contact others only (`experiment_network`),
so what holds in all those runs holds in the program. That takes fresh addresses. Whatever addresses are drawn, between two
iterations of `run` the inhabitants of the network are the nodes in its slots that have an address, and the time is what the number
of the iteration says (`experiment_population`); and a node that was killed is out of everything, also when its address is drawn
again (`killed_node_gone`).
-/

namespace Dhtsim

open CallMachine

/-- A call of the network that draws a tag draws a fresh one. -/
def freshExperimentTags {N : Nat} (Γ : Ctx) (m : ExperimentConfig N) (l : ExperimentLabel N) : Bool :=
  match l with
  | .run r => freshNetworkTags (m.network Γ) (.run r.1)
  | _ => true

namespace ExperimentAux

variable {N : Nat} {Γ : Ctx} {D : Durations} {nNodes : Nat} {config : Config} {key : Fin N → KademliaKey} {offset : Fin N → Time}
  {limit : UInt32} {m m' : ExperimentConfig N} {l : ExperimentLabel N} {ok : ExperimentConfig N → ExperimentLabel N → Prop}

/-- A run of a network that keeps its transcript is a run of the network. -/
theorem run_forget {ok : RecordedConfig N → Label (NetworkCall N) NetworkChoice → Prop}
    {ok' : NetworkConfig N → NetworkLabel N → Prop} {m₀ m : RecordedConfig N} (h : Run (recordedProgram Γ N) ok m₀ m)
    (hok : ∀ m l, ok m l → ok' m.forget l) : Run (networkProgram Γ N) ok' m₀.forget m.forget := by
  induction h with
  | refl => exact .refl
  | step _ ho hs ih => exact ih.step (hok _ _ ho) (AccountingAux.step_forget (step_of_eq_some hs)).1.step_eq

/-- A run of the program is a run of the network. -/
theorem network_of_run {ok' : NetworkConfig N → NetworkLabel N → Prop}
    (h : Run (experimentProgram Γ D N) ok (startExperiment config key offset limit nNodes) m)
    (hok : ∀ (m : ExperimentConfig N) r l, Run (experimentProgram Γ D N) ok (startExperiment config key offset limit nNodes) m →
      ok m (.run r) → usedLabel (recordedProgram Γ N) m r = some l → ok' (m.network Γ) l) :
    Run (networkProgram Γ N) ok' (startNetwork (fun _ => config) key offset limit) (m.network Γ) := by
  have hused : Run (recordedProgram Γ N) (fun m l => ok' (RecordedConfig.forget m) l)
      (startRecorded (fun _ => config) key offset limit) (usedConfig (recordedProgram Γ N) m) :=
    run_used h ⟨[], _, rfl, rfl⟩ (fun m r l hr ho hl => hok m r l hr ho hl)
  exact run_forget hused (fun _ _ h => h)

/-- What the experiment asks of a node is proper. -/
theorem properUse_of_enterPre {x : NetworkCall N} (h : EnterPre True (outline m.state) x) :
    properUse (m.network Γ) (.enter x) = true := by
  cases x with
  | app i c =>
    rcases h with rfl | ⟨-, -, haddress, hasks⟩
    · rfl
    · have haddress : ((m.network Γ).state.applications i).address ≠ 0 := haddress trivial
      have hnames : c.namesOthers (m.network Γ).state i = true := by
        cases hasks with
        | ping hne => exact decide_eq_true (hne trivial)
        | store v => rfl
        | fetch k cb => rfl
      simp only [properUse, Bool.or_eq_true, Bool.and_eq_true]
      exact Or.inr ⟨decide_eq_true haddress, hnames⟩
  | add i => exact decide_eq_true h.2.2
  | _ => rfl

/-- The steps of the network in the program are steps of proper use. -/
theorem proper_of_usedLabel (hok : ∀ m l, ok m l → freshAddress m l = true)
    (hr : Run (experimentProgram Γ D N) ok (startExperiment config key offset limit nNodes) m) {r : NetworkChoice × ExperimentChoice}
    (ho : ok m (.run r)) {l : NetworkLabel N} (hl : usedLabel (recordedProgram Γ N) m r = some l) :
    properUse (m.network Γ) l = true := by
  obtain ⟨s, stack, tr⟩ := m
  cases stack with
  | nil => cases hl
  | cons c rest =>
    have hpre := pre_of_run (fun m l ho (_ : True) => hok m l ho) hr rfl
    cases c with
    | own d => cases hl
    | enter x =>
      cases hl
      exact properUse_of_enterPre (m := ⟨s, .enter x :: rest, tr⟩) hpre
    | inside x =>
      simp only [usedLabel, Option.some.injEq] at hl
      split at hl
      · rw [← hl]
        rfl
      · rw [← hl]
        cases x with
        | add i =>
          have hfresh := hok _ _ ho
          simp only [freshAddress, Bool.and_eq_true] at hfresh
          refine Bool.or_eq_true_iff.2 (Or.inr ?_)
          exact hfresh.2
        | _ => rfl

/-- The steps of the network in the program draw fresh tags. -/
theorem fresh_of_usedLabel {r : NetworkChoice × ExperimentChoice} (h : freshExperimentTags Γ m (.run r) = true)
    {l : NetworkLabel N} (hl : usedLabel (recordedProgram Γ N) m r = some l) : freshNetworkTags (m.network Γ) l = true := by
  unfold usedLabel at hl
  split at hl
  · simp only [Option.some.injEq] at hl
    split at hl
    · rw [← hl]
      rfl
    · rw [← hl]
      exact h
  · cases hl
    rfl
  · cases hl

/-- A step of the program leaves a dead node as it is. -/
theorem dead_step (hr : Run (experimentProgram Γ D N) ok (startExperiment config key offset limit nNodes) m)
    (hs : Step (experimentProgram Γ D N) m l m') {i : Fin N} (hi : (m.state.1.network.applications i).dead = true) :
    m'.state.1.network.applications i = m.state.1.network.applications i := by
  have hlive : ∀ j, j = i → ¬ (outline m.state).dead j = false := by
    rintro j rfl hj
    exact Bool.noConfusion (hi.symm.trans hj)
  cases hs with
  | @run r c rest s tr s' cs hw he =>
    have hpre := pre_of_run (fun _ _ _ => False.elim) hr rfl
    cases c with
    | own d =>
      obtain ⟨t, xs, ds, -, rfl, -⟩ := exec_own he
      rfl
    | enter x =>
      obtain ⟨-, hp⟩ := Option.ite_none_right_eq_some.1 he
      cases hp
      rfl
    | inside x =>
      rcases exec_inside he with ⟨-, rfl, -⟩ | ⟨w, xs, hw, rfl, -⟩
      · rfl
      rcases CentralizedNetwork.applications_cases hw i with h | ⟨c, q, rfl, hq, hi'⟩ | ⟨total, rfl, -⟩ | ⟨a, rfl, -⟩
      · exact h
      · rcases hpre with rfl | ⟨-, hdead, -⟩
        · cases hq
          refine hi'.trans ?_
          -- Killing it once more changes nothing.
          simp only [KademliaNode.execBase, BaseApplication.exec, KademliaNode.setBase]
          rw [← hi]
        · exact absurd hdead (hlive i rfl)
      · exact absurd hpre.2 (hlive i rfl)
      · exact absurd hpre.2 (hlive i rfl)
  | event hc => cases hc
  | reentry hf hc => cases hc
  | leave hf => cases hf

end ExperimentAux

open ExperimentAux

variable {N : Nat} {Γ : Ctx} {D : Durations} {nNodes : Nat} {config : Config} {key : Fin N → KademliaKey} {offset : Fin N → Time}
  {limit : UInt32} {m m' : ExperimentConfig N}

/-- The program uses the network as it should: with fresh addresses and tags, a run of the program is a run of the network in which
each node is added once, under an address of its own, is used only then, and is asked to contact other nodes only. -/
theorem experiment_network
    (h : Run (experimentProgram Γ D N) (fun m l => freshAddress m l = true ∧ freshExperimentTags Γ m l = true)
      (startExperiment config key offset limit nNodes) m) :
    Run (networkProgram Γ N) (fun m l => freshNetworkTags m l = true ∧ properUse m l = true)
      (startNetwork (fun _ => config) key offset limit) (m.network Γ) := by
  refine network_of_run h (fun m r l hr ho hl => ?_)
  exact ⟨fresh_of_usedLabel ho.2 hl, proper_of_usedLabel (fun _ _ h => h.1) hr ho hl⟩

/-- Two nodes, of which one is replaced, for one iteration of `run`. -/
def replaceOne : ExperimentConfig 3 :=
  startExperiment ⟨1, 100, 100⟩ (fun i => KademliaKey.starting (UInt8.ofNat (i.val * 128 + 1))) (fun _ => 50) 65536 2

/-- The network after the iteration. -/
theorem experiment_network_sample : ∃ m : ExperimentConfig 3, m.stack = [.own (.run 1)] ∧
    Run (networkProgram Ctx.reference 3) (fun m l => freshNetworkTags m l = true ∧ properUse m l = true)
      (startNetwork (fun _ => ⟨1, 100, 100⟩) (fun i => KademliaKey.starting (UInt8.ofNat (i.val * 128 + 1))) (fun _ => 50)
        65536) (m.network Ctx.reference) := by
  obtain ⟨m, h, hm⟩ := exists_run_of_follow (experimentProgram Ctx.reference ⟨0, 1, 1⟩ 3)
    (fun m l => freshAddress m l && freshExperimentTags Ctx.reference m l) replaceOne
    (experimentRuns ⟨1, 0, 1⟩ 5 143) (fun m => decide (m.stack = [.own (.run 1)])) (by decide +kernel)
  exact ⟨m, of_decide_eq_true hm, experiment_network (h.mono (fun _ _ ho => Bool.and_eq_true_iff.1 ho))⟩

/-- When `run` begins its iteration `i`, its slots hold nodes that are alive, node zero first, and those of them that have an address
are the inhabitants of the network, each at its own; there is a bit and a key for each. Every tenth iteration before it replaced one.
The network has made its ticks of the warm-up and of `init`, and `i` more, and printed a line for each. If the draws were `fresh`,
moreover, each node in a slot has an address, which no other node ever had. -/
theorem experiment_population {fresh : Prop}
    (h : Run (experimentProgram Γ D N) (fun m l => fresh → freshAddress m l = true)
      (startExperiment config key offset limit nNodes) m)
    {i : Nat} {rest : List (ClientCall (NetworkCall N) (ExperimentCall N))} (hi : m.stack = .own (.run i) :: rest) :
    (outline m.state).Staffed Γ nNodes fresh ∧ (outline m.state).Clock (D.warmup + D.storing + i) ∧
      (outline m.state).replaced = (i + 9) / 10 ∧ i ≤ D.maxIterations :=
  pre_of_run (fun _ _ h => h) h hi

/-- `k` steps one after the other, each with the same addresses to draw from. -/
def experimentRunsFrom {N : Nat} (attempts : List UInt32) (r : ExperimentChoice) (t k : Nat) : List (ExperimentLabel N) :=
  (List.range k).map (fun j => .run (⟨⟨UInt64.ofNat (t + j), 0, false, 0⟩, attempts⟩, r))

/-- The population after the iteration: with fresh draws, and when the network found no address at all. -/
theorem experiment_population_sample :
    (∃ m : ExperimentConfig 3, m.stack = [.own (.run 1)] ∧
      (outline m.state).Staffed Ctx.reference 2 True ∧ (outline m.state).Clock 2 ∧ (outline m.state).replaced = 1 ∧ 1 ≤ 1) ∧
      ∃ m : ExperimentConfig 3, m.stack = [.own (.run 1)] ∧ m.state.1.network.inhabitants.entries = [] ∧
        (outline m.state).Staffed Ctx.reference 2 False ∧ (outline m.state).Clock 2 ∧ (outline m.state).replaced = 1 ∧ 1 ≤ 1 := by
  constructor
  · obtain ⟨m, h, hm⟩ := exists_run_of_follow (experimentProgram Ctx.reference ⟨0, 1, 1⟩ 3) freshAddress replaceOne
      (experimentRuns ⟨1, 0, 1⟩ 5 143) (fun m => decide (m.stack = [.own (.run 1)])) (by decide +kernel)
    have hm := of_decide_eq_true hm
    exact ⟨m, hm, experiment_population (h.mono (fun _ _ ho _ => ho)) hm⟩
  · obtain ⟨m, h, hm⟩ := exists_run_of_follow (experimentProgram Ctx.reference ⟨0, 1, 1⟩ 3) (fun _ _ => true) replaceOne
      (experimentRunsFrom [] ⟨1, 0, 1⟩ 5 65)
      (fun m => decide (m.stack = [.own (.run 1)]) && decide (m.state.1.network.inhabitants.entries = [])) (by decide +kernel)
    obtain ⟨hm, hnone⟩ := Bool.and_eq_true_iff.1 hm
    have hm := of_decide_eq_true hm
    exact ⟨m, hm, of_decide_eq_true hnone, experiment_population (h.mono (fun _ _ _ => False.elim)) hm⟩

/-- A node that was killed is out of everything: whatever happens later, whatever addresses are drawn, it stays as it is. -/
theorem killed_node_gone (h : Run (experimentProgram Γ D N) anyStep (startExperiment config key offset limit nNodes) m)
    (h' : Run (experimentProgram Γ D N) anyStep m m') {i : Fin N} (hi : (m.state.1.network.applications i).dead = true) :
    m'.state.1.network.applications i = m.state.1.network.applications i := by
  refine h'.invariant (I := fun m' => m'.state.1.network.applications i = m.state.1.network.applications i) rfl ?_
  intro m₁ l m₂ hr hI _ hs
  exact (dead_step (h.trans hr) hs (hI.symm ▸ hi)).trans hI

/-- Node one is killed, and stays as it is until the end of the iteration, though the new node gets its address. -/
theorem killed_node_gone_sample : ∃ m m' : ExperimentConfig 3, (m.state.1.network.applications 1).dead = true ∧
    m'.stack = [.own (.run 1)] ∧ (m'.state.1.network.applications 2).address = (m.state.1.network.applications 1).address ∧
      m'.state.1.network.applications 1 = m.state.1.network.applications 1 := by
  obtain ⟨m, h, hm⟩ := exists_run_of_follow (experimentProgram Ctx.reference ⟨0, 1, 1⟩ 3) (fun _ _ => true) replaceOne
    (experimentRunsFrom [7, 8] ⟨1, 0, 1⟩ 5 80) (fun m => (m.state.1.network.applications 1).dead &&
      (follow (experimentProgram Ctx.reference ⟨0, 1, 1⟩ 3) (fun _ _ => true) m (experimentRunsFrom [7, 8] ⟨1, 0, 1⟩ 85 70)).any
        (fun m' : ExperimentConfig 3 => decide (m'.stack = [.own (.run 1)] ∧
          (m'.state.1.network.applications 2).address = (m.state.1.network.applications 1).address))) (by decide +kernel)
  obtain ⟨hdead, hlater⟩ := Bool.and_eq_true_iff.1 hm
  obtain ⟨m', h', hm'⟩ := exists_run_of_follow _ _ _ _ _ hlater
  obtain ⟨hstack, haddress⟩ := of_decide_eq_true hm'
  exact ⟨m, m', hdead, hstack, haddress, killed_node_gone (run_anyStep h) (run_anyStep h') hdead⟩

end Dhtsim
