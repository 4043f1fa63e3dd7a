import Dhtsim.Lemmas.Projection

/-!
# The loops of the network's tick

Where a network is (`Moment`): between two ticks, or at one of the places of the loops of `tick`, with the calls of the place
above those of the loops. `Proceeds` lists what one step makes of a moment, and every step does one of these things
(`proceeds_of_step`).
-/

namespace Dhtsim

open CallMachine

/-- Where a network is: between two ticks, or in its tick. There it is at the head of the loop over the inhabitants, or in the
turn of one, whose address it has. A turn is the inhabitant's own tick and then the loop over its outbound messages. -/
inductive Moment (N : Nat) where
  | between (calls : List (NetworkCall N))
  | start
  | looking (after : Option UInt32)
  | ticking (address : UInt32) (i : Fin N) (calls : List (NetworkCall N))
  | emptying (address : UInt32) (i : Fin N) (total : Nat)
  | passing (address : UInt32) (i : Fin N) (total : Nat) (call : NetworkCall N)
  | puttingBack (address : UInt32) (i : Fin N) (call : NetworkCall N)
  | finish

/-- The calls that a tick does not make for itself. -/
def NetworkCall.isAside {N : Nat} : NetworkCall N → Bool
  | .app _ _ => true
  | .call _ _ => true
  | .add _ => true
  | .settle _ _ => true
  | .remove _ => true
  | _ => false

/-- The calls inside a node that may run in the turn of an inhabitant: only the inhabitant itself ticks, and what the network
calls outside of a tick, or when it passes a message along, is not among them. -/
def Call.runsInTurn (own : Bool) : Call → Bool
  | .base .die => false
  | .base (.recv _) => false
  | .base .unqueueOut => false
  | .base (.setAddress _) => false
  | .tick _ => own
  | .base (.tick _) => own
  | .base .drain => own
  | .base (.handleMessage _) => own
  | .base (.overdue _) => own
  | .base (.attemptRetry _) => own
  | .maintenanceCheck => own
  | .refreshCheck => own
  | .runTableMaintenance => own
  | _ => true

theorem runsInTurn_of_isPublic {c : Call} (h : c.isPublic = true) (own : Bool) : c.runsInTurn own = true := by
  cases c with
  | base b => cases h
  | ping | lookup | store | storeAt | observe => rfl
  | _ => cases h

theorem runsInTurn_of_makes {Γ : Ctx} {ch : Choice} {n : KademliaNode} {c y : Call} {own : Bool}
    (h : KademliaNode.Makes Γ ch n c y) (hc : c.runsInTurn own = true) : y.runsInTurn own = true := by
  cases h <;> first | exact hc | rfl

/-- The call with which the network puts a message back. -/
def putBack (m : Message UInt32) : Call := .base (.send m .empty 16 0)

namespace Moment

variable {N : Nat}

/-- The calls of the loops in the turn of an inhabitant. -/
def loops (address : UInt32) (i : Fin N) (total : Nat) : List (NetworkCall N) :=
  [.outbound i total, .inhabitant (some address), .endTick]

def stack : Moment N → List (NetworkCall N)
  | .between calls => calls
  | .start => [.tick]
  | .looking after => [.inhabitant after, .endTick]
  | .ticking address i calls => calls ++ loops address i 0
  | .emptying address i total => loops address i total
  | .passing address i total call => call :: loops address i total
  | .puttingBack address _ call => [call, .inhabitant (some address), .endTick]
  | .finish => [.endTick]

/-- The turn of an inhabitant, when the calls of its own tick still have to run. -/
def inTurn (address : UInt32) (i : Fin N) : List (NetworkCall N) → Moment N
  | [] => .emptying address i 0
  | x :: calls => .ticking address i (x :: calls)

@[simp] theorem stack_inTurn (address : UInt32) (i : Fin N) (calls : List (NetworkCall N)) :
    (inTurn address i calls).stack = calls ++ loops address i 0 := by
  cases calls <;> rfl

/-- The calls of a moment are those of its place. -/
def Fits (w : CentralizedNetwork N) : Moment N → Prop
  | .between calls => ∀ x ∈ calls, x.isAside = true
  | .ticking address i calls => w.inhabitants.find? address = some i ∧ calls ≠ [] ∧
      (calls = [.call i (.tick w.epoch)] ∨ ∀ x ∈ calls, ∃ j c, x = .app j c ∧ c.runsInTurn (decide (j = i)) = true)
  | .emptying address i _ => w.inhabitants.find? address = some i
  | .passing address i _ x => w.inhabitants.find? address = some i ∧ ((∃ m, x = .passAlongMessage m) ∨
      ∃ m j, w.inhabitants.find? m.destination = some j ∧ (x = .call j (.base (.recv m)) ∨ x = .app j (.base (.recv m))))
  | .puttingBack address i x => w.inhabitants.find? address = some i ∧ ∃ m, x = .call i (putBack m) ∨ x = .app i (putBack m)
  | _ => True

end Moment

open Moment

/-- What one step makes of a moment, with the call that runs if one does, one constructor for each thing that may happen. -/
inductive Proceeds {N : Nat} (Γ : Ctx) (ch : NetworkChoice) (w : CentralizedNetwork N) :
    Moment N → List (NetworkCall N) → CentralizedNetwork N → Moment N → Prop where
  | aside {x : NetworkCall N} {cs calls : List (NetworkCall N)} {w' : CentralizedNetwork N} (hx : x.isAside = true)
      (he : CentralizedNetwork.exec Γ ch x w = some (w', cs)) :
      Proceeds Γ ch w (.between (x :: calls)) [x] w' (.between (cs ++ calls))
  | comes {x : NetworkCall N} {calls : List (NetworkCall N)} (hx : x.isEvent = true ∨ x.isReentry = true) (ht : x ≠ .tick) :
      Proceeds Γ ch w (.between calls) [] w (.between (x :: calls))
  | returns {x : NetworkCall N} {calls : List (NetworkCall N)} (hx : x.isUserCode = true) :
      Proceeds Γ ch w (.between (x :: calls)) [] w (.between calls)
  | begins : Proceeds Γ ch w (.between []) [] w .start
  | loops : Proceeds Γ ch w .start [.tick] w (.looking none)
  | turn {after : Option UInt32} {address : UInt32} {i : Fin N} (hn : w.inhabitants.next after = some (address, i)) :
      Proceeds Γ ch w (.looking after) [.inhabitant after] w (.ticking address i [.call i (.tick w.epoch)])
  | noMore {after : Option UInt32} (hn : w.inhabitants.next after = none) :
      Proceeds Γ ch w (.looking after) [.inhabitant after] w .finish
  | handOn {address : UInt32} {i : Fin N} :
      Proceeds Γ ch w (.ticking address i [.call i (.tick w.epoch)]) [.call i (.tick w.epoch)] w
        (.ticking address i [.app i (.tick w.epoch)])
  | ticks {address : UInt32} {i j : Fin N} {c : Call} {cs calls : List (NetworkCall N)} {w' : CentralizedNetwork N}
      (he : CentralizedNetwork.exec Γ ch (.app j c) w = some (w', cs)) :
      Proceeds Γ ch w (.ticking address i (.app j c :: calls)) [.app j c] w' (inTurn address i (cs ++ calls))
  | reenters {address : UInt32} {i j : Fin N} {x : NetworkCall N} {c : Call} {calls : List (NetworkCall N)}
      (hx : x.isUserCode = true) (hc : c.isPublic = true) :
      Proceeds Γ ch w (.ticking address i (x :: calls)) [] w (.ticking address i (.app j c :: x :: calls))
  | leaves {address : UInt32} {i : Fin N} {x : NetworkCall N} {calls : List (NetworkCall N)} (hx : x.isUserCode = true) :
      Proceeds Γ ch w (.ticking address i (x :: calls)) [] w (inTurn address i calls)
  | empty {address : UInt32} {i : Fin N} {total : Nat} (hq : (w.applications i).outqueue = []) :
      Proceeds Γ ch w (.emptying address i total) [.outbound i total] (w.setApplication i (w.applications i).unqueueOut)
        (.looking (some address))
  | drops {address : UInt32} {i : Fin N} {total : Nat} {m : Message UInt32} {rest : List (Message UInt32)}
      (hq : (w.applications i).outqueue = m :: rest) (hsize : w.linkLimit.toNat < m.data.length) :
      Proceeds Γ ch w (.emptying address i total) [.outbound i total] (w.setApplication i (w.applications i).unqueueOut)
        (.looking (some address))
  | exceeds {address : UInt32} {i : Fin N} {total : Nat} {m : Message UInt32} {rest : List (Message UInt32)}
      (hq : (w.applications i).outqueue = m :: rest) (hsize : m.data.length ≤ w.linkLimit.toNat)
      (hlimit : w.linkLimit.toNat < total + m.data.length) :
      Proceeds Γ ch w (.emptying address i total) [.outbound i total] (w.setApplication i (w.applications i).unqueueOut)
        (.puttingBack address i (.call i (putBack m)))
  | passes {address : UInt32} {i : Fin N} {total : Nat} {m : Message UInt32} {rest : List (Message UInt32)}
      (hq : (w.applications i).outqueue = m :: rest) (hlimit : total + m.data.length ≤ w.linkLimit.toNat) :
      Proceeds Γ ch w (.emptying address i total) [.outbound i total] (w.setApplication i (w.applications i).unqueueOut)
        (.passing address i (total + m.data.length) (.passAlongMessage m))
  | nobody {address : UInt32} {i : Fin N} {total : Nat} {m : Message UInt32}
      (hf : w.inhabitants.find? m.destination = none) :
      Proceeds Γ ch w (.passing address i total (.passAlongMessage m)) [.passAlongMessage m] w (.emptying address i total)
  | delivers {address : UInt32} {i j : Fin N} {total : Nat} {m : Message UInt32}
      (hf : w.inhabitants.find? m.destination = some j) :
      Proceeds Γ ch w (.passing address i total (.passAlongMessage m)) [.passAlongMessage m] w
        (.passing address i total (.call j (.base (.recv m))))
  | hands {address : UInt32} {i j : Fin N} {total : Nat} {m : Message UInt32} :
      Proceeds Γ ch w (.passing address i total (.call j (.base (.recv m)))) [.call j (.base (.recv m))] w
        (.passing address i total (.app j (.base (.recv m))))
  | takes {address : UInt32} {i j : Fin N} {total : Nat} {m : Message UInt32} :
      Proceeds Γ ch w (.passing address i total (.app j (.base (.recv m)))) [.app j (.base (.recv m))]
        (w.setApplication j ((w.applications j).setBase ((w.applications j).toBaseApplication.queueIn m)))
        (.emptying address i total)
  | handsBack {address : UInt32} {i : Fin N} {m : Message UInt32} :
      Proceeds Γ ch w (.puttingBack address i (.call i (putBack m))) [.call i (putBack m)] w
        (.puttingBack address i (.app i (putBack m)))
  | sends {address : UInt32} {i : Fin N} {m : Message UInt32} :
      Proceeds Γ ch w (.puttingBack address i (.app i (putBack m))) [.app i (putBack m)]
        (w.setApplication i ((w.applications i).setBase
          (BaseApplication.send ch.tag m .empty 16 0 (w.applications i).toBaseApplication).1))
        (.looking (some address))
  | ends : Proceeds Γ ch w .finish [.endTick] { w with epoch := w.epoch + 1 } (.between [])

variable {N : Nat} {Γ : Ctx} {ch : NetworkChoice} {w w' : CentralizedNetwork N} {μ μ' : Moment N} {x : NetworkCall N}
  {cs rest : List (NetworkCall N)} {tr : NetworkTrace N} {m m' : NetworkConfig N} {l : NetworkLabel N}

/-- What a call aside makes is aside. -/
theorem isAside_of_makes {y : NetworkCall N} (h : NetworkMakes Γ ch w x y) (hx : x.isAside = true) : y.isAside = true := by
  cases h with
  | inhabitants | endTick | tick | outbound | nextInhabitant | sendAgain | passAlong | nextOutbound | recv => cases hx
  | inside | handOn | settle | catchUp => rfl

/-- A call inside a node leaves the inhabitants and the epoch of the network as they are. -/
theorem exec_app_frame {i : Fin N} {c : Call} (h : CentralizedNetwork.exec Γ ch (.app i c) w = some (w', cs)) :
    w'.inhabitants = w.inhabitants ∧ w'.epoch = w.epoch ∧ w'.linkLimit = w.linkLimit := by
  obtain ⟨q, -, heq⟩ := CentralizedNetwork.exec_app h
  obtain ⟨rfl, rfl⟩ := Prod.mk.inj heq
  exact ⟨rfl, rfl, rfl⟩

/-- A call in the turn of an inhabitant makes calls of the turn. -/
theorem exec_app_inTurn {i j : Fin N} {c : Call} (h : CentralizedNetwork.exec Γ ch (.app j c) w = some (w', cs))
    (hc : c.runsInTurn (decide (j = i)) = true) :
    ∀ x ∈ cs, ∃ k c', x = .app k c' ∧ c'.runsInTurn (decide (k = i)) = true := by
  obtain ⟨q, hq, heq⟩ := CentralizedNetwork.exec_app h
  obtain ⟨rfl, rfl⟩ := Prod.mk.inj heq
  intro x hx
  obtain ⟨c', hc', rfl⟩ := List.mem_map.1 hx
  exact ⟨j, c', rfl, runsInTurn_of_makes (KademliaNode.exec_makes hq c' hc') hc⟩

theorem fits_inTurn {address : UInt32} {i : Fin N} {calls : List (NetworkCall N)}
    (hi : w.inhabitants.find? address = some i)
    (hcalls : ∀ x ∈ calls, ∃ j c, x = .app j c ∧ c.runsInTurn (decide (j = i)) = true) :
    (inTurn address i calls).Fits w := by
  cases calls with
  | nil => exact hi
  | cons x calls => exact ⟨hi, by simp, Or.inr hcalls⟩

/-- Only outside code waits in a turn, and it is a call inside a node. -/
theorem isUserCode_cases (h : x.isUserCode = true) : ∃ i, x = .app i .userCode := by
  cases x with
  | app i c =>
    cases c with
    | userCode => exact ⟨i, rfl⟩
    | _ => cases h
  | _ => cases h

/-- Putting a message back calls nothing. -/
theorem exec_putBack (i : Fin N) (m : Message UInt32) : CentralizedNetwork.exec Γ ch (.app i (putBack m)) w =
    some (w.setApplication i ((w.applications i).setBase
      (BaseApplication.send ch.tag m .empty 16 0 (w.applications i).toBaseApplication).1), []) := by
  have hcalls : (BaseApplication.send ch.tag m .empty 16 0 (w.applications i).toBaseApplication).2 = [] := by
    unfold BaseApplication.send
    split_ifs <;> rfl
  simp only [CentralizedNetwork.exec, putBack, KademliaNode.exec, KademliaNode.execBase, BaseApplication.exec, hcalls,
    Option.map_some, List.map_nil]

/-- What a run of a call makes of a moment. -/
theorem proceeds_run (hμ : μ.Fits w) (hstack : μ.stack = x :: rest) (he : CentralizedNetwork.exec Γ ch x w = some (w', cs)) :
    ∃ μ', μ'.stack = cs ++ rest ∧ μ'.Fits w' ∧ Proceeds Γ ch w μ [x] w' μ' := by
  cases μ with
  | between calls =>
    subst hstack
    have hx : x.isAside = true := hμ x List.mem_cons_self
    refine ⟨.between (cs ++ rest), rfl, fun y hy => ?_, .aside hx he⟩
    rcases List.mem_append.1 hy with hy | hy
    · exact isAside_of_makes (CentralizedNetwork.exec_makes he y hy) hx
    · exact hμ y (List.mem_cons_of_mem _ hy)
  | start =>
    cases hstack
    cases he
    exact ⟨.looking none, rfl, trivial, .loops⟩
  | looking after =>
    cases hstack
    cases he
    cases hn : w.inhabitants.next after with
    | none => exact ⟨.finish, rfl, trivial, .noMore hn⟩
    | some e =>
      obtain ⟨address, i⟩ := e
      have hi : w.inhabitants.find? address = some i := SortedMap.find?_eq_some_iff.2 (SortedMap.mem_of_next hn)
      exact ⟨.ticking address i [.call i (.tick w.epoch)], rfl, ⟨hi, by simp, Or.inl rfl⟩, .turn hn⟩
  | ticking address i calls =>
    obtain ⟨hi, hne, rfl | hcalls⟩ := hμ
    · cases hstack
      cases he
      refine ⟨.ticking address i [.app i (.tick w.epoch)], rfl, ⟨hi, by simp, Or.inr (fun z hz => ?_)⟩, .handOn⟩
      exact ⟨i, _, List.mem_singleton.1 hz, decide_eq_true rfl⟩
    · cases calls with
      | nil => exact absurd rfl hne
      | cons y calls =>
        obtain ⟨rfl, rfl⟩ := List.cons.inj hstack
        obtain ⟨j, c, rfl, hc⟩ := hcalls y List.mem_cons_self
        have hinh : w'.inhabitants = w.inhabitants := (exec_app_frame he).1
        refine ⟨inTurn address i (cs ++ calls), by simp, fits_inTurn (hinh ▸ hi) (fun z hz => ?_), .ticks he⟩
        rcases List.mem_append.1 hz with hz | hz
        · exact exec_app_inTurn he hc z hz
        · exact hcalls z (List.mem_cons_of_mem _ hz)
  | emptying address i total =>
    cases hstack
    cases hq : (w.applications i).outqueue with
    | nil =>
      simp only [CentralizedNetwork.exec, CentralizedNetwork.outbound, hq] at he
      cases he
      exact ⟨.looking (some address), rfl, trivial, .empty hq⟩
    | cons m queue =>
      simp only [CentralizedNetwork.exec, CentralizedNetwork.outbound, hq] at he
      split_ifs at he with hsize hlimit <;> cases he
      · exact ⟨.looking (some address), rfl, trivial, .drops hq hsize⟩
      · exact ⟨.puttingBack address i (.call i (putBack m)), rfl, ⟨hμ, m, Or.inl rfl⟩, .exceeds hq (by omega) hlimit⟩
      · exact ⟨.passing address i (total + m.data.length) (.passAlongMessage m), rfl, ⟨hμ, Or.inl ⟨m, rfl⟩⟩,
          .passes hq (by omega)⟩
  | passing address i total y =>
    cases hstack
    obtain ⟨hi, ⟨m, rfl⟩ | ⟨m, j, hj, rfl | rfl⟩⟩ := hμ
    · cases hf : w.inhabitants.find? m.destination with
      | none =>
        simp only [CentralizedNetwork.exec, CentralizedNetwork.passAlongMessage, hf] at he
        cases he
        exact ⟨.emptying address i total, rfl, hi, .nobody hf⟩
      | some j =>
        simp only [CentralizedNetwork.exec, CentralizedNetwork.passAlongMessage, hf] at he
        cases he
        exact ⟨.passing address i total (.call j (.base (.recv m))), rfl, ⟨hi, Or.inr ⟨m, j, hf, Or.inl rfl⟩⟩, .delivers hf⟩
    · cases he
      exact ⟨.passing address i total (.app j (.base (.recv m))), rfl, ⟨hi, Or.inr ⟨m, j, hj, Or.inr rfl⟩⟩, .hands⟩
    · cases he
      exact ⟨.emptying address i total, rfl, hi, .takes⟩
  | puttingBack address i y =>
    cases hstack
    obtain ⟨hi, m, rfl | rfl⟩ := hμ
    · cases he
      exact ⟨.puttingBack address i (.app i (putBack m)), rfl, ⟨hi, m, Or.inr rfl⟩, .handsBack⟩
    · rw [exec_putBack] at he
      cases he
      exact ⟨.looking (some address), rfl, trivial, .sends⟩
  | finish =>
    cases hstack
    cases he
    exact ⟨.between [], rfl, fun _ h => absurd h List.not_mem_nil, .ends⟩

theorem eq_between_of_nil (h : μ.stack = []) : μ = .between [] := by
  cases μ with
  | between calls => exact congrArg _ h
  | ticking address i calls => simp [Moment.stack, Moment.loops] at h
  | _ => cases h

theorem eq_finish_of_stack (hμ : μ.Fits w) (h : μ.stack = [.endTick]) : μ = .finish := by
  cases μ with
  | between calls =>
    have haside := hμ _ (h ▸ List.mem_cons_self)
    cases haside
  | ticking address i calls =>
    have hlen := congrArg List.length h
    simp [Moment.stack, Moment.loops] at hlen
  | finish => rfl
  | _ => cases h

/-- What comes in is aside, but for the tick. -/
theorem isAside_of_enters (h : x.isEvent = true ∨ x.isReentry = true) (ht : x ≠ .tick) : x.isAside = true := by
  cases x with
  | app | add | remove => rfl
  | tick => exact absurd rfl ht
  | _ => rcases h with h | h <;> cases h

/-- Outside code runs between ticks, or in a turn. -/
theorem stack_of_userCode {i : Fin N} (hμ : μ.Fits w) (hstack : μ.stack = .app i .userCode :: rest) :
    μ = .between (.app i .userCode :: rest) ∨
      ∃ a j calls, μ = .ticking a j (.app i .userCode :: calls) ∧ rest = calls ++ Moment.loops a j 0 ∧
        w.inhabitants.find? a = some j ∧
          ∀ y ∈ calls, ∃ k c, y = .app k c ∧ c.runsInTurn (decide (k = j)) = true := by
  cases μ with
  | between calls => exact Or.inl (congrArg _ hstack)
  | ticking a j calls =>
    obtain ⟨hj, hne, rfl | hcalls⟩ := hμ
    · cases hstack
    · cases calls with
      | nil => exact absurd rfl hne
      | cons y calls =>
        obtain ⟨rfl, rfl⟩ := List.cons.inj hstack
        exact Or.inr ⟨a, j, calls, rfl, rfl, hj, fun y hy => hcalls y (List.mem_cons_of_mem _ hy)⟩
  | passing a j total y =>
    obtain ⟨-, ⟨m, rfl⟩ | ⟨m, j, -, rfl | rfl⟩⟩ := hμ <;> cases hstack
  | puttingBack a j y =>
    obtain ⟨-, m, rfl | rfl⟩ := hμ <;> cases hstack
  | _ => cases hstack

/-- What a step makes of a moment. -/
theorem proceeds_of_step (hμ : μ.Fits m.state) (hstack : m.stack = μ.stack) (hs : Step (networkProgram Γ N) m l m') :
    ∃ ch ran μ', m'.stack = μ'.stack ∧ μ'.Fits m'.state ∧ m'.trace = ran.map (fun x => (x, ch)) ++ m.trace ∧
      Proceeds Γ ch m.state μ ran m'.state μ' := by
  cases hs with
  | @run ch x rest w tr w' cs hw he =>
    obtain ⟨μ', h1, h2, h3⟩ := proceeds_run hμ hstack.symm he
    exact ⟨ch, [x], μ', h1.symm, h2, rfl, h3⟩
  | @event x w tr hx =>
    obtain rfl : μ = .between [] := eq_between_of_nil hstack.symm
    by_cases ht : x = .tick
    · subst ht
      exact ⟨⟨⟨0, 0, false, 0⟩, []⟩, [], .start, rfl, trivial, rfl, .begins⟩
    · refine ⟨⟨⟨0, 0, false, 0⟩, []⟩, [], .between [x], rfl, fun y hy => ?_, rfl, .comes (Or.inl hx) ht⟩
      rw [List.mem_singleton.1 hy]
      exact isAside_of_enters (Or.inl hx) ht
  | @reentry x f rest w tr hf hx =>
    obtain ⟨i, rfl⟩ := isUserCode_cases hf
    have ht : x ≠ .tick := by rintro rfl; cases hx
    refine ⟨⟨⟨0, 0, false, 0⟩, []⟩, [], ?_⟩
    rcases stack_of_userCode hμ hstack.symm with rfl | ⟨a, j, calls, rfl, rfl, hj, hcalls⟩
    · refine ⟨.between (x :: .app i .userCode :: rest), rfl, fun y hy => ?_, rfl, .comes (Or.inr hx) ht⟩
      rcases List.mem_cons.1 hy with rfl | hy
      · exact isAside_of_enters (Or.inr hx) ht
      · exact hμ y hy
    · cases x with
      | app k c =>
        refine ⟨.ticking a j (.app k c :: .app i .userCode :: calls), rfl, ⟨hj, by simp, Or.inr fun y hy => ?_⟩, rfl,
          .reenters rfl hx⟩
        rcases List.mem_cons.1 hy with rfl | hy
        · exact ⟨k, c, rfl, runsInTurn_of_isPublic hx _⟩
        · rcases List.mem_cons.1 hy with rfl | hy
          · exact ⟨i, .userCode, rfl, rfl⟩
          · exact hcalls y hy
      | _ => cases hx
  | @leave f rest w tr hf =>
    obtain ⟨i, rfl⟩ := isUserCode_cases hf
    refine ⟨⟨⟨0, 0, false, 0⟩, []⟩, [], ?_⟩
    rcases stack_of_userCode hμ hstack.symm with rfl | ⟨a, j, calls, rfl, rfl, hj, hcalls⟩
    · exact ⟨.between rest, rfl, fun y hy => hμ y (List.mem_cons_of_mem _ hy), rfl, .returns rfl⟩
    · exact ⟨inTurn a j calls, by simp, fits_inTurn hj hcalls, rfl, .leaves rfl⟩

/-- Every network that a run reaches is at some moment. -/
theorem moment_of_run {ok : NetworkConfig N → NetworkLabel N → Prop} {config : Fin N → Config} {key : Fin N → KademliaKey}
    {offset : Fin N → Time} {limit : UInt32} (h : Run (networkProgram Γ N) ok (startNetwork config key offset limit) m) :
    ∃ μ : Moment N, m.stack = μ.stack ∧ μ.Fits m.state := by
  refine h.invariant (I := fun m => ∃ μ : Moment N, m.stack = μ.stack ∧ μ.Fits m.state) ?_ ?_
  · exact ⟨.between [], rfl, fun x hx => absurd hx List.not_mem_nil⟩
  · rintro m l m' - ⟨μ, hstack, hμ⟩ - hs
    obtain ⟨ch, ran, μ', h1, h2, -, -⟩ := proceeds_of_step hμ hstack hs
    exact ⟨μ', h1, h2⟩

/-! ## The order of the turns -/

namespace Moment

/-- The tick has not come to the inhabitant of the address. -/
def before (a : UInt32) : Moment N → Prop
  | .start => True
  | .looking after => ∀ b ∈ after, b < a
  | .ticking b _ _ => b < a
  | .emptying b _ _ => b < a
  | .passing b _ _ _ => b < a
  | .puttingBack b _ _ => b < a
  | _ => False

/-- The turn of the inhabitant of the address is over. -/
def after (a : UInt32) : Moment N → Prop
  | .looking after => ∃ b ∈ after, a ≤ b
  | .ticking b _ _ => a < b
  | .emptying b _ _ => a < b
  | .passing b _ _ _ => a < b
  | .puttingBack b _ _ => a < b
  | .finish => True
  | .between _ => True
  | .start => False

/-- A tick runs. -/
def within : Moment N → Prop
  | .between _ => False
  | _ => True

end Moment

variable {ran : List (NetworkCall N)} {a : UInt32} {i : Fin N}

theorem before_inTurn {b : UInt32} {calls : List (NetworkCall N)} : (inTurn b i calls).before a ↔ b < a := by
  cases calls <;> exact Iff.rfl

theorem after_inTurn {b : UInt32} {calls : List (NetworkCall N)} : (inTurn b i calls).after a ↔ a < b := by
  cases calls <;> exact Iff.rfl

/-- Before the turn of an inhabitant comes a turn of another one, or its own begins. -/
theorem Proceeds.before (h : Proceeds Γ ch w μ ran w' μ') (ha : w.inhabitants.find? a = some i) (hμ : μ.before a) :
    μ'.before a ∨ ∃ after, μ = .looking after ∧ ran = [.inhabitant after] ∧ w' = w ∧
      μ' = .ticking a i [.call i (.tick w.epoch)] := by
  have hmem : (a, i) ∈ w.inhabitants.entries := SortedMap.find?_eq_some_iff.1 ha
  cases h with
  | @turn after b j hn =>
    rcases (SortedMap.le_of_next hn hmem hμ).lt_or_eq with hlt | heq
    · exact Or.inl hlt
    · obtain rfl : b = a := heq
      obtain rfl : j = i := SortedMap.eq_of_mem _ (SortedMap.mem_of_next hn) hmem
      exact Or.inr ⟨after, rfl, rfl, rfl, rfl⟩
  | noMore hn => exact absurd hmem (SortedMap.not_mem_of_next hn hμ)
  | loops => exact Or.inl (fun b hb => by cases hb)
  | empty | drops | sends =>
    refine Or.inl (fun b hb => ?_)
    obtain rfl : _ = b := Option.some.inj hb
    exact hμ
  | ticks | leaves => exact Or.inl (before_inTurn.2 hμ)
  | aside | comes | returns | begins | ends => exact absurd hμ not_false
  | _ => exact Or.inl hμ

/-- An inhabitant's own tick goes on, or its loop over the outbound messages begins. -/
theorem Proceeds.ticking {calls : List (NetworkCall N)} (h : Proceeds Γ ch w (.ticking a i calls) ran w' μ') :
    (∀ x ∈ ran, (∃ c, x = .call i c) ∨ ∃ j c, x = .app j c) ∧ ∃ calls', μ' = inTurn a i calls' := by
  cases h with
  | handOn => exact ⟨by simp, _, (inTurn.eq_2 _ _ _ _).symm⟩
  | ticks he => exact ⟨by simp, _, rfl⟩
  | reenters => exact ⟨by simp, _, (inTurn.eq_2 _ _ _ _).symm⟩
  | leaves => exact ⟨by simp, _, rfl⟩

/-- After the turn of an inhabitant it has none until the tick ends. -/
theorem Proceeds.after (h : Proceeds Γ ch w μ ran w' μ') (hin : μ.within) (hμ : μ.after a) : μ'.after a := by
  cases h with
  | @turn after b j hn =>
    obtain ⟨c, rfl, hc⟩ := hμ
    exact lt_of_le_of_lt hc (SortedMap.lt_of_next hn)
  | noMore | ends => trivial
  | loops => exact absurd hμ not_false
  | ticks | leaves => exact after_inTurn.2 hμ
  | empty | drops | sends => exact ⟨_, rfl, le_of_lt hμ⟩
  | aside | comes | returns | begins => exact absurd hin not_false
  | _ => exact hμ

/-- A tick leaves the inhabitants and the limit as they are. -/
theorem Proceeds.frame (h : Proceeds Γ ch w μ ran w' μ') (hin : μ.within) :
    w'.inhabitants = w.inhabitants ∧ w'.linkLimit = w.linkLimit := by
  cases h with
  | ticks he => exact ⟨(exec_app_frame he).1, (exec_app_frame he).2.2⟩
  | aside | comes | returns | begins => exact absurd hin not_false
  | _ => exact ⟨rfl, rfl⟩

/-- A step into a tick, or within one, leaves the inhabitants as they are. -/
theorem Proceeds.inhabitants (h : Proceeds Γ ch w μ ran w' μ') (hin : μ'.within) : w'.inhabitants = w.inhabitants := by
  cases h with
  | ticks he => exact (exec_app_frame he).1
  | aside | comes | returns | ends => exact absurd hin not_false
  | _ => rfl

/-- A tick goes on until it is at its end. -/
theorem Proceeds.within (h : Proceeds Γ ch w μ ran w' μ') (hin : μ.within) (hμ : μ ≠ .finish) : μ'.within := by
  have hturn : ∀ {b : UInt32} {j : Fin N} {calls : List (NetworkCall N)}, (inTurn b j calls).within := by
    intro b j calls
    cases calls <;> trivial
  cases h with
  | ends => exact absurd rfl hμ
  | ticks | leaves => exact hturn
  | aside | comes | returns | begins => exact absurd hin not_false
  | _ => trivial

/-- Only the end of a tick runs the call that counts the epoch. -/
theorem Proceeds.ne_endTick (h : Proceeds Γ ch w μ ran w' μ') (hμ : μ ≠ .finish) : ∀ x ∈ ran, x ≠ .endTick := by
  intro x hx
  cases h with
  | ends => exact absurd rfl hμ
  | aside haside =>
    cases List.mem_singleton.1 hx
    rintro rfl
    cases haside
  | comes | returns | begins | reenters | leaves => cases hx
  | _ =>
    cases List.mem_singleton.1 hx
    simp

/-- At its end a tick counts the epoch. -/
theorem Proceeds.finish (h : Proceeds Γ ch w .finish ran w' μ') :
    ran = [.endTick] ∧ w' = { w with epoch := w.epoch + 1 } ∧ μ' = .between [] := by
  cases h
  exact ⟨rfl, rfl, rfl⟩

theorem Proceeds.within_or (h : Proceeds Γ ch w μ ran w' μ') (hin : μ.within) : μ'.within ∨ μ' = .between [] := by
  by_cases hμ : μ = .finish
  · subst hμ
    exact Or.inr h.finish.2.2
  · exact Or.inl (h.within hin hμ)

/-- The loop over the outbound messages is at its head when its call is on top. -/
theorem emptying_of_head {total : Nat} (hμ : μ.Fits w) (h : μ.stack = .outbound i total :: rest) :
    ∃ a, μ = .emptying a i total := by
  cases μ with
  | emptying b j t =>
    obtain ⟨hhead, -⟩ := List.cons.inj h
    obtain ⟨rfl, rfl⟩ := NetworkCall.outbound.inj hhead
    exact ⟨b, rfl⟩
  | between calls =>
    have haside := hμ _ (h ▸ List.mem_cons_self)
    cases haside
  | ticking b j calls =>
    obtain ⟨-, hne, rfl | hcalls⟩ := hμ
    · cases h
    · cases calls with
      | nil => exact absurd rfl hne
      | cons x calls =>
        obtain ⟨k, c, rfl, -⟩ := hcalls x List.mem_cons_self
        cases h
  | passing b j t x =>
    obtain ⟨-, ⟨m, rfl⟩ | ⟨m, k, -, rfl | rfl⟩⟩ := hμ <;> cases h
  | puttingBack b j x =>
    obtain ⟨-, m, rfl | rfl⟩ := hμ <;> cases h
  | _ => cases h

theorem eq_emptying_of_stack {total : Nat} (hμ : μ.Fits w) (h : μ.stack = Moment.loops a i total) :
    μ = .emptying a i total := by
  obtain ⟨b, rfl⟩ := emptying_of_head hμ h
  simp only [Moment.stack, Moment.loops, List.cons.injEq, NetworkCall.inhabitant.injEq, Option.some.injEq] at h
  obtain ⟨-, rfl, -⟩ := h
  rfl

/-- A message is passed along in the turn of its sender. -/
theorem eq_passing_of_stack {total : Nat} {msg : Message UInt32} (hμ : μ.Fits w)
    (h : μ.stack = .passAlongMessage msg :: Moment.loops a i total) : μ = .passing a i total (.passAlongMessage msg) := by
  cases μ with
  | passing b j t x =>
    simp only [Moment.stack, Moment.loops, List.cons.injEq, NetworkCall.outbound.injEq, NetworkCall.inhabitant.injEq,
      Option.some.injEq] at h
    obtain ⟨rfl, ⟨rfl, rfl⟩, rfl, -⟩ := h
    rfl
  | between calls =>
    have haside := hμ _ (h ▸ List.mem_cons_self)
    cases haside
  | ticking b j calls =>
    obtain ⟨-, hne, rfl | hcalls⟩ := hμ
    · cases h
    · cases calls with
      | nil => exact absurd rfl hne
      | cons x calls =>
        obtain ⟨k, c, rfl, -⟩ := hcalls x List.mem_cons_self
        cases h
  | puttingBack b j x =>
    obtain ⟨-, m, rfl | rfl⟩ := hμ <;> cases h
  | _ => cases h

/-- Nobody dies in a tick. -/
theorem Proceeds.dead (h : Proceeds Γ ch w μ ran w' μ') (hμ : μ.Fits w) (hin : μ.within) (j : Fin N) :
    (w'.applications j).dead = (w.applications j).dead := by
  have hset : ∀ {k : Fin N} {app : KademliaNode}, app.dead = (w.applications k).dead →
      ((w.setApplication k app).applications j).dead = (w.applications j).dead := by
    intro k app happ
    by_cases hk : j = k
    · subst hk
      rw [CentralizedNetwork.applications_setApplication_self, happ]
    · rw [CentralizedNetwork.applications_setApplication_of_ne w hk]
  cases h with
  | @ticks address i k c cs calls w' he =>
    obtain ⟨q, hq, heq⟩ := CentralizedNetwork.exec_app he
    obtain ⟨rfl, rfl⟩ := Prod.mk.inj heq
    refine hset (KademliaNode.exec_dead hq ?_)
    rintro rfl
    obtain ⟨-, -, h | h⟩ := hμ
    · cases h
    · obtain ⟨_, _, h, hc⟩ := h _ List.mem_cons_self
      cases h
      cases hc
  | empty | drops | exceeds | passes => exact hset rfl
  | takes =>
    refine hset ?_
    rw [BaseApplication.queueIn_eq]
    rfl
  | sends =>
    refine hset ?_
    rw [BaseApplication.send_eq]
    rfl
  | aside | comes | returns | begins => exact absurd hin not_false
  | _ => rfl

/-- The network does not wait for its next event. -/
def busy (m : NetworkConfig N) (_ : NetworkLabel N) : Prop := m.stack ≠ []

end Dhtsim
