import Dhtsim.Lemmas.Outbound
import Dhtsim.Model.Outside

/-!
# The link limit and the conservation of messages

In one tick of the network every inhabitant has one turn, whose loop over the outbound messages ends. It passes along no more
bytes than the limit, and every message that was in the queue is passed along, dropped because it is larger than the limit, or
left in the queue.
-/

namespace Dhtsim

open CallMachine Moment

/-- The messages that were passed along for the inhabitant of an address, when its turn was the last one or not: a turn ends with
the step of the loop that looks for the inhabitant after it. -/
def passedFor {N : Nat} (a : UInt32) : Bool → NetworkTrace N → List (Message UInt32)
  | _, [] => []
  | own, (.passAlongMessage m, _) :: tr => passedFor a own tr ++ if own then [m] else []
  | _, (.inhabitant after, _) :: tr => passedFor a (decide (after = some a)) tr
  | own, _ :: tr => passedFor a own tr

namespace ConservationAux

variable {N : Nat} {Γ : Ctx} {ch : NetworkChoice} {w w' : CentralizedNetwork N} {μ μ' : Moment N} {a : UInt32} {i : Fin N}
  {ran : List (NetworkCall N)} {m₀ m m' : NetworkConfig N} {seg tr : NetworkTrace N}

/-- The turn of the inhabitant of the address goes on, or has just ended. -/
def own (a : UInt32) : Moment N → Bool
  | .looking after => decide (after = some a)
  | .ticking b _ _ => decide (b = a)
  | .emptying b _ _ => decide (b = a)
  | .passing b _ _ _ => decide (b = a)
  | .puttingBack b _ _ => decide (b = a)
  | _ => false

theorem own_inTurn {b : UInt32} {calls : List (NetworkCall N)} : own a (inTurn b i calls) = decide (b = a) := by
  cases calls <;> rfl

theorem own_looking {b : UInt32} : own a (.looking (some b) : Moment N) = decide (b = a) := by
  simp [own]

/-- A call that begins no turn adds what it passes along in the turn of the inhabitant. -/
theorem passedFor_cons {x : NetworkCall N} (hx : ∀ after, x ≠ .inhabitant after) (b : Bool) :
    passedFor a b ((x, ch) :: tr) = passedFor a b tr ++ if b then passed [x] else [] := by
  cases x with
  | inhabitant after => exact absurd rfl (hx after)
  | passAlongMessage m => rfl
  | _ => cases b <;> exact (List.append_nil _).symm

/-- What a step adds to the messages that were passed along for an inhabitant. -/
theorem passedFor_proceeds (hg : Proceeds Γ ch w μ ran w' μ') : passedFor a (own a μ') (ran.map (fun x => (x, ch)) ++ tr) =
    passedFor a (own a μ) tr ++ if own a μ then passed ran else [] := by
  have hnone : ∀ b : Bool, (passedFor a b tr ++ if b then passed ([] : List (NetworkCall N)) else []) = passedFor a b tr := by
    intro b
    cases b <;> exact List.append_nil _
  cases hg with
  | aside hx he => exact passedFor_cons (by rintro after rfl; cases hx) _
  | turn | noMore =>
    rw [show ∀ (after : Option UInt32), passed [NetworkCall.inhabitant (N := N) after] = [] from fun _ => rfl, ite_self, List.append_nil]
    rfl
  | ticks he =>
    rw [own_inTurn]
    exact passedFor_cons (by simp) _
  | leaves =>
    rw [own_inTurn]
    exact (hnone _).symm
  | empty | drops | sends =>
    rw [own_looking]
    exact passedFor_cons (by simp) _
  | comes | returns | begins | reenters => exact (hnone _).symm
  | _ => exact passedFor_cons (by simp) _

/-- What was passed along for an inhabitant since a tick began, and what became of its messages. -/
inductive Account (Γ : Ctx) (m₀ : NetworkConfig N) (a : UInt32) (i : Fin N) (m : NetworkConfig N) (seg : NetworkTrace N) :
    Moment N → Prop where
  | before {μ : Moment N} (hμ : μ.before a) (hnone : passedFor a (own a μ) seg = []) : Account Γ m₀ a i m seg μ
  | ticking {calls : List (NetworkCall N)} (hnone : passedFor a true seg = []) : Account Γ m₀ a i m seg (.ticking a i calls)
  | settling {μ : Moment N} {m₁ : NetworkConfig N} (h₁ : Run (networkProgram Γ N) busy m₀ m₁)
      (hstack : m₁.stack = loops a i 0) (hr : Run (networkProgram Γ N) busy m₁ m) (hown : own a μ = true)
      (hμ : μ ≠ .looking (some a))
      (hset : Settling a i (m₁.state.applications i).outqueue m.state (passedFor a true seg) μ) : Account Γ m₀ a i m seg μ
  | settled {μ : Moment N} {m₁ m₂ : NetworkConfig N} (h₁ : Run (networkProgram Γ N) busy m₀ m₁)
      (hstack : m₁.stack = loops a i 0) (h₂ : Run (networkProgram Γ N) busy m₁ m₂)
      (hstack₂ : m₂.stack = [.inhabitant (some a), .endTick]) (hr : Run (networkProgram Γ N) busy m₂ m) (hμ : μ.after a)
      (hset : Conserved m₀.state.linkLimit.toNat (m₁.state.applications i).outqueue (passedFor a (own a μ) seg)
        (m₂.state.applications i).outqueue) : Account Γ m₀ a i m seg μ

/-- Before its turn nothing is passed along for an inhabitant. -/
theorem own_of_before (h : μ.before a) : own a μ = false := by
  cases μ with
  | looking after =>
    cases after with
    | none => rfl
    | some b => simpa [own] using ne_of_lt (h b rfl)
  | ticking | emptying | passing | puttingBack => simpa [own] using ne_of_lt h
  | _ => rfl

/-- The loop over its messages is part of its turn. -/
theorem own_of_settling {sent done : List (Message UInt32)} (h : Settling a i sent w done μ) : own a μ = true := by
  cases h <;> simp [own]

/-- After a turn nothing more is passed along for its inhabitant. -/
theorem passed_of_after (hg : Proceeds Γ ch w μ ran w' μ') (hμ : μ.after a) : (if own a μ then passed ran else []) = [] := by
  split_ifs with hown
  · cases hg with
    | turn | noMore => rfl
    | empty | drops | exceeds | passes | nobody | delivers | hands | takes | handsBack | sends | ticks | handOn | reenters |
      leaves => exact absurd (of_decide_eq_true hown) (ne_of_gt hμ)
    | _ => cases hown
  · rfl

/-- The turn of the inhabitant begins. -/
theorem account_inTurn {calls : List (NetworkCall N)} (hnone : passedFor a true seg = [])
    (h₁ : Run (networkProgram Γ N) busy m₀ m) (hstack : m.stack = (inTurn a i calls).stack) :
    Account Γ m₀ a i m seg (inTurn a i calls) := by
  cases calls with
  | nil =>
    refine .settling h₁ hstack .refl (decide_eq_true rfl) (by simp [inTurn]) ?_
    rw [hnone]
    exact .emptying rfl (Nat.zero_le _)
  | cons x calls => exact .ticking hnone

/-- The account of an inhabitant is kept by every step of the tick. -/
theorem Account.proceeds (h : Account Γ m₀ a i m seg μ) (hm : Run (networkProgram Γ N) busy m₀ m)
    (hstep : Run (networkProgram Γ N) busy m m') (ha : m.state.inhabitants.find? a = some i)
    (hlimit : m.state.linkLimit = m₀.state.linkLimit) (hlive : (m.state.applications i).dead = false)
    (hbound : ∀ m₁, Run (networkProgram Γ N) busy m₀ m₁ → (m₁.state.applications i).outqueue.length ≤ outqueueLimit)
    (hin : μ.within) (hstack' : m'.stack = μ'.stack)
    (hg : Proceeds Γ ch m.state μ ran m'.state μ') : Account Γ m₀ a i m' (ran.map (fun x => (x, ch)) ++ seg) μ' := by
  have hpassed : passedFor a (own a μ') (ran.map (fun x => (x, ch)) ++ seg) = _ := passedFor_proceeds hg
  have hframe := hg.frame hin
  cases h with
  | before hμ hnone =>
    rw [own_of_before hμ] at hpassed hnone
    simp only [hnone, Bool.false_eq_true, if_false, List.append_nil] at hpassed
    rcases hg.before ha hμ with hμ' | ⟨after, rfl, rfl, -, rfl⟩
    · exact .before hμ' hpassed
    · exact .ticking (by simpa [own] using hpassed)
  | @ticking calls hnone =>
    obtain ⟨hran, calls', rfl⟩ := hg.ticking
    have hnothing : passed ran = [] := by
      refine List.flatMap_eq_nil_iff.2 (fun x hx => ?_)
      rcases hran x hx with ⟨c, rfl⟩ | ⟨j, c, rfl⟩ <;> rfl
    refine account_inTurn ?_ (hm.trans hstep) hstack'
    rw [own_inTurn, decide_eq_true rfl, hnothing, ite_self, List.append_nil] at hpassed
    rw [hpassed]
    simpa [own] using hnone
  | @settling _ m₁ h₁ hstack hr hown hμ hset =>
    have hset' := hset.proceeds hlive (hbound m₁ h₁) hμ hg
    have hown' : own a μ' = true := own_of_settling hset'
    rw [hown, hown', if_pos rfl] at hpassed
    rw [← hpassed] at hset'
    by_cases hend : μ' = .looking (some a)
    · subst hend
      refine .settled h₁ hstack (hr.trans hstep) hstack' .refl ⟨a, rfl, le_refl a⟩ ?_
      rw [hown', ← hlimit, ← hframe.2]
      cases hset' with
      | settled h => exact h
    · exact .settling h₁ hstack (hr.trans hstep) hown' hend hset'
  | @settled _ m₁ m₂ h₁ hstack h₂ hstack₂ hr hμ hset =>
    refine .settled h₁ hstack h₂ hstack₂ (hr.trans hstep) (hg.after hin hμ) ?_
    rw [hpassed, passed_of_after hg hμ, List.append_nil]
    exact hset

variable {config : Fin N → Config} {key : Fin N → KademliaKey} {offset : Fin N → Time} {limit : UInt32}

/-- A tick that runs: its moment, what it leaves as it is, and the account of an inhabitant. -/
structure Ticking (Γ : Ctx) (m₀ : NetworkConfig N) (a : UInt32) (i : Fin N) (m : NetworkConfig N) (seg : NetworkTrace N)
    (μ : Moment N) : Prop where
  stack : m.stack = μ.stack
  fits : μ.Fits m.state
  within : μ.within ∨ μ = .between []
  trace : m.trace = seg ++ m₀.trace
  inhabitant : m.state.inhabitants.find? a = some i
  limit : m.state.linkLimit = m₀.state.linkLimit
  live : (m.state.applications i).dead = false
  account : Account Γ m₀ a i m seg μ

/-- From the call of `tick` on the account is right, as long as only the network calls. -/
theorem ticking_of_run (hr : Run (networkProgram Γ N) anyStep (startNetwork config key offset limit) m₀)
    (h₀ : m₀.stack = [.tick]) (ha : m₀.state.inhabitants.find? a = some i) (hlive : (m₀.state.applications i).dead = false)
    (h : Run (networkProgram Γ N) busy m₀ m) : ∃ seg μ, Ticking Γ m₀ a i m seg μ := by
  have hbound : ∀ m₁, Run (networkProgram Γ N) busy m₀ m₁ →
      (m₁.state.applications i).outqueue.length ≤ outqueueLimit :=
    fun m₁ h₁ => KademliaNode.outqueue_le_of_run (run_node (hr.trans (run_anyStep h₁)) i)
  refine h.invariant (I := fun m => ∃ seg μ, Ticking Γ m₀ a i m seg μ) ?_ ?_
  · exact ⟨[], .start, h₀, trivial, Or.inl trivial, rfl, ha, rfl, hlive, .before trivial rfl⟩
  · rintro m l m' hm ⟨seg, μ, hI⟩ hbusy hs
    have hin : μ.within := by
      rcases hI.within with hin | rfl
      · exact hin
      · exact absurd hI.stack hbusy
    obtain ⟨ch, ran, μ', hstack', hfits', htrace', hg⟩ := proceeds_of_step hI.fits hI.stack hs
    have hframe := hg.frame hin
    have hdead := hg.dead hI.fits hin i
    refine ⟨_, μ', hstack', hfits', hg.within_or hin, ?_, ?_, hframe.2.trans hI.limit, hdead.trans hI.live,
      hI.account.proceeds hm (Run.refl.step hbusy hs.step_eq) hI.inhabitant hI.limit hI.live hbound hin hstack' hg⟩
    · rw [htrace', hI.trace, List.append_assoc]
    · rw [hframe.1]
      exact hI.inhabitant

end ConservationAux

open ConservationAux

/-- In every tick of a network, every live inhabitant has one loop over its outbound messages, which ends. What it passes along
in the tick is within the limit, and the messages that were in its queue when its own tick was over are those passed along,
those dropped and those left. -/
theorem link_discipline {N : Nat} {Γ : Ctx} {config : Fin N → Config} {key : Fin N → KademliaKey} {offset : Fin N → Time}
    {limit : UInt32} {m₀ : NetworkConfig N} {a : UInt32} {i : Fin N}
    (hr : Run (networkProgram Γ N) anyStep (startNetwork config key offset limit) m₀) (h₀ : m₀.stack = [.tick])
    (ha : m₀.state.inhabitants.find? a = some i) (hlive : (m₀.state.applications i).dead = false) :
    (∀ m₁, Run (networkProgram Γ N) busy m₀ m₁ → m₁.stack = loops a i 0 →
      ∃ m₂, Run (networkProgram Γ N) busy m₁ m₂ ∧ m₂.stack = [.inhabitant (some a), .endTick]) ∧
    ∀ m, Run (networkProgram Γ N) busy m₀ m → m.stack = [] →
      ∃ m₁ m₂ seg, Run (networkProgram Γ N) busy m₀ m₁ ∧ m₁.stack = loops a i 0 ∧ Run (networkProgram Γ N) busy m₁ m₂ ∧
        m₂.stack = [.inhabitant (some a), .endTick] ∧ Run (networkProgram Γ N) busy m₂ m ∧ m.trace = seg ++ m₀.trace ∧
        Conserved m₀.state.linkLimit.toNat (m₁.state.applications i).outqueue (passedFor a false seg)
          (m₂.state.applications i).outqueue := by
  refine ⟨fun m₁ h₁ hstack₁ => ?_, fun m h hend => ?_⟩
  · obtain ⟨seg, μ, hI⟩ := ticking_of_run hr h₀ ha hlive h₁
    obtain rfl : μ = .emptying a i 0 := eq_emptying_of_stack hI.fits (hI.stack.symm.trans hstack₁)
    have hset : Settling a i (m₁.state.applications i).outqueue m₁.state [] (.emptying a i 0) := .emptying rfl (Nat.zero_le _)
    have hloop : Looping a i (m₁.state.applications i).outqueue _ m₁ := ⟨[], _, hI.stack, hI.fits, hset, hI.live, rfl⟩
    obtain ⟨-, m₂, h₂, -, hstack₂⟩ :=
      hloop.ends (KademliaNode.outqueue_le_of_run (run_node (hr.trans (run_anyStep h₁)) i))
    exact ⟨m₂, h₂, hstack₂⟩
  · obtain ⟨seg, μ, hI⟩ := ticking_of_run hr h₀ ha hlive h
    obtain rfl : μ = .between [] := eq_between_of_nil (hI.stack.symm.trans hend)
    cases hI.account with
    | before hμ => exact absurd hμ not_false
    | settling _ _ _ hown => cases hown
    | @settled _ m₁ m₂ hr₁ hstack₁ hr₂ hstack₂ hr₃ _ hset =>
      exact ⟨m₁, m₂, seg, hr₁, hstack₁, hr₂, hstack₂, hr₃, hI.trace, hset⟩

/-- A node that joined has two messages to send. -/
def twoPings {N : Nat} (i : Fin N) : List (NetworkLabel N) :=
  [.enter (.add i)] ++ networkRuns 5 1 9 ++ [.enter (.app i (.ping 7 .empty))] ++ networkRuns 0 19 2 ++
    [.enter (.app i (.ping 8 .empty))] ++ networkRuns 0 31 2 ++ [.enter .tick]

/-- With a limit that is too low for two pings, a tick passes one along and puts the other back. -/
theorem link_discipline_sample : ∃ m₀ m m₁ m₂ : NetworkConfig 1, ∃ seg, m₀.stack = [.tick] ∧
    Run (networkProgram .reference 1) busy m₀ m ∧ m.stack = [] ∧ m.trace = seg ++ m₀.trace ∧
      m₁.stack = loops 5 0 0 ∧ Conserved 40 (m₁.state.applications 0).outqueue (passedFor 5 false seg)
        (m₂.state.applications 0).outqueue := by
  obtain ⟨m₀, hr, hm₀⟩ := exists_run_of_follow (networkProgram .reference 1) (fun _ _ => true) (sampleNetwork 40) (twoPings 0)
    (fun m₀ : NetworkConfig 1 => (decide (m₀.stack = [.tick]) && decide (m₀.state.inhabitants.find? 5 = some 0) &&
      !(m₀.state.applications 0).dead && decide (m₀.state.linkLimit.toNat = 40)) &&
      (follow (networkProgram .reference 1) (fun m : NetworkConfig 1 => fun _ => decide (m.stack ≠ [])) m₀ (networkRuns 0 40 18)).any
        (fun m : NetworkConfig 1 => decide (m.stack = []))) (by decide +kernel)
  simp only [Bool.and_eq_true, decide_eq_true_eq, Bool.not_eq_true'] at hm₀
  obtain ⟨⟨⟨⟨h₀, ha⟩, hlive⟩, hlimit⟩, htick⟩ := hm₀
  obtain ⟨m, hm, hend⟩ := exists_run_of_follow _ _ m₀ _ _ htick
  have hbusy : Run (networkProgram .reference 1) busy m₀ m := by
    refine hm.mono (fun m l h => ?_)
    simpa [busy] using h
  obtain ⟨m₁, m₂, seg, -, hstack₁, -, -, -, htrace, hset⟩ :=
    (link_discipline (run_anyStep hr) h₀ ha hlive).2 m hbusy (of_decide_eq_true hend)
  exact ⟨m₀, m, m₁, m₂, seg, h₀, hbusy, of_decide_eq_true hend, htrace, hstack₁, hlimit ▸ hset⟩

end Dhtsim
