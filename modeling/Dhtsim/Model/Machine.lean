import Dhtsim.Lib.CallMachine
import Dhtsim.Model.Kademlia

/-!
# One node and its environment

A node runs one event to its end before the next: the network ticks it, hands it a message or takes one from it, somebody
uses its public functions or kills it. Functions handed in from outside are code the node does not know; while one runs it
may use the public functions in turn. `nodeProgram` is this program, and its runs are all the orders in which any of this can
happen, with any messages and any times.
-/

namespace Dhtsim

open CallMachine

/-- Whether the functions of a ping's callback set come from outside. -/
def PingFn.fromOutside : PingFn → Bool
  | .user _ => true
  | _ => false

/-- Whether a function of a lookup's callback set comes from outside, from `fetch` or a user, as a function of its kind. -/
def FindNodesFn.fromOutside (success : Bool) : FindNodesFn → Bool
  | .user _ => true
  | .fetchSuccess _ => success
  | .fetchFailure _ => !success
  | _ => false

/-- `Experiment<KademliaNode>::fetch` (`main.cpp`). -/
def fetch (key : KademliaKey) (cb : CallbackSet UserFn) : Call :=
  .lookup true key (.of (.fetchSuccess cb) (.fetchFailure cb))

/-- The calls that anybody may make: the public functions, with callbacks from outside. -/
def Call.isPublic : Call → Bool
  | .ping _ callback => callback.successFns.all PingFn.fromOutside && callback.failureFns.all PingFn.fromOutside
  | .lookup _ _ callback =>
    callback.successFns.all (FindNodesFn.fromOutside true) && callback.failureFns.all (FindNodesFn.fromOutside false)
  | .store _ => true
  | .storeAt _ _ => true
  | .observe _ _ => true
  | _ => false

/-- The calls that come in when nothing runs: those of the network, a message to handle, and the public functions. The
network sends a message again without a callback. -/
def Call.isEvent : Call → Bool
  | .tick _ => true
  | .base (.recv _) => true
  | .base .unqueueOut => true
  | .base (.send _ callback _ _) => callback.isEmpty
  | .base (.handleMessage _) => true
  | .base .die => true
  | .base (.setAddress _) => true
  | c => c.isPublic

/-- Outside code runs while its call is on top of the stack. -/
def Call.isUserCode : Call → Bool
  | .userCode => true
  | _ => false

/-- A node as a program. -/
def nodeProgram (Γ : Ctx) : Program KademliaNode Call Choice where
  exec ch c n := KademliaNode.exec Γ ch c n
  waits := Call.isUserCode
  event := Call.isEvent
  reentry := Call.isPublic

/-- What outside code may call may also come in when nothing runs. -/
theorem isEvent_of_enters {Γ : Ctx} {c : Call} (h : (nodeProgram Γ).event c = true ∨ (nodeProgram Γ).reentry c = true) :
    c.isEvent = true := by
  rcases h with h | h
  · exact h
  · cases c with
    | base b => cases h
    | tick t => rfl
    | _ => exact h

abbrev NodeConfig := Configuration KademliaNode Call Choice

abbrev NodeLabel := Label Call Choice

/-- A node that was just constructed. -/
def startNode (config : Config) (key : KademliaKey) (maintenanceOffset : Time) : NodeConfig :=
  ⟨KademliaNode.init config key maintenanceOffset, [], []⟩

/-- A node for samples. -/
def sampleNode (key : KademliaKey) : NodeConfig := startNode ⟨20, 10000, 1000⟩ key 700

/-- No condition on the steps of a run. -/
def anyStep {σ κ ρ : Type} : Configuration σ κ ρ → Label κ ρ → Prop := fun _ _ => True

/-- Every run is one without conditions. -/
theorem run_anyStep {σ κ ρ : Type} {P : Program σ κ ρ} {ok : Configuration σ κ ρ → Label κ ρ → Prop}
    {m m' : Configuration σ κ ρ} (h : Run P ok m m') : Run P anyStep m m' :=
  h.mono (fun _ _ _ => trivial)

/-- The calls that ran, the last one first. -/
abbrev NodeTrace := List (Call × Choice)

/-- The tags that `randomTag` drew for a live node's messages, the last one first. -/
def drawnTags : NodeTrace → List Tag
  | [] => []
  | (.base (.send m _ _ _), ch) :: tr =>
    if m.tag = 0 ∧ ∀ e ∈ tr, e.1 ≠ .base .die then ch.tag :: drawnTags tr else drawnTags tr
  | _ :: tr => drawnTags tr

/-- A step that draws a tag draws one that is not zero and was not drawn before. -/
def freshTags (m : NodeConfig) (l : NodeLabel) : Bool :=
  match l, m.stack with
  | .run ch, .base (.send msg _ _ _) :: _ =>
    msg.tag ≠ 0 || m.state.dead || (ch.tag ≠ 0 && ch.tag ∉ drawnTags m.trace)
  | _, _ => true

/-- `k` steps one after the other, with the tags `t`, `t + 1` and so on to draw from. -/
def runs (t k : Nat) : List NodeLabel := (List.range k).map (fun j => .run ⟨UInt64.ofNat (t + j), 0, false, 0⟩)

end Dhtsim
