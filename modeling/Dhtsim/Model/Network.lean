import Dhtsim.Model.Machine

/-!
# The network

`CentralizedNetwork` of `network.hpp` and `network.cpp`, with applications that are Kademlia nodes. A node that a run ever makes
is one of `N` from the start; it is part of the network once it was added. The functions of the network that call an
application are calls (`NetworkCall`), as those of a node are.
-/

namespace Dhtsim

open CallMachine

/-- What one step leaves to chance: the choices of a node, and the addresses that the generator draws for a new one. -/
structure NetworkChoice extends Choice where
  attempts : List UInt32

structure CentralizedNetwork (N : Nat) where
  applications : Fin N → KademliaNode
  inhabitants : SortedMap UInt32 (Fin N)
  epoch : Time
  /-- The bytes per tick that one application may send. -/
  linkLimit : UInt32

/-- The calls of a network. -/
inductive NetworkCall (N : Nat) where
  /-- A call inside an application. -/
  | app (i : Fin N) (c : Call)
  /-- The network calls a function of an application. -/
  | call (i : Fin N) (c : Call)
  | tick
  /-- The rest of the loop of `tick` over the inhabitants: those after an address, or all of them. -/
  | inhabitant (after : Option UInt32)
  /-- The rest of the loop of `tick` over the outbound messages of an application. -/
  | outbound (i : Fin N) (totalLinkTransfer : Nat)
  | passAlongMessage (message : Message UInt32)
  /-- The end of `tick`, which counts the epoch. -/
  | endTick
  | add (i : Fin N)
  /-- `add`, once there is an address. -/
  | settle (i : Fin N) (address : UInt32)
  | remove (i : Fin N)
deriving DecidableEq

/-- What `unqueueOut` leaves. -/
def KademliaNode.unqueueOut (n : KademliaNode) : KademliaNode :=
  n.setBase { n.toBaseApplication with outqueue := n.outqueue.tail }

namespace CentralizedNetwork

variable {N : Nat}

/-- `CentralizedNetwork(linkLimit)`, with the applications that will be added. -/
def init (applications : Fin N → KademliaNode) (linkLimit : UInt32) : CentralizedNetwork N where
  applications := applications
  inhabitants := .empty
  epoch := 0
  linkLimit := linkLimit

def setApplication (w : CentralizedNetwork N) (i : Fin N) (app : KademliaNode) : CentralizedNetwork N :=
  { w with applications := Function.update w.applications i app }

/-- `getNewAddress`: the first free address among a thousand attempts, or 0. -/
def getNewAddress (w : CentralizedNetwork N) (attempts : List UInt32) : UInt32 :=
  ((attempts.take 1000).find? (fun attempt => !w.inhabitants.contains attempt)).getD 0

/-- The body of the loop of `tick` over the outbound messages. -/
def outbound (w : CentralizedNetwork N) (i : Fin N) (totalLinkTransfer : Nat) :
    CentralizedNetwork N × List (NetworkCall N) :=
  (w.setApplication i (w.applications i).unqueueOut,
    match (w.applications i).outqueue with
    | [] => []
    | outboundMessage :: _ =>
      let size := outboundMessage.data.length
      let totalLinkTransfer := totalLinkTransfer + size
      if w.linkLimit.toNat < size then []
      else if w.linkLimit.toNat < totalLinkTransfer then [.call i (.base (.send outboundMessage .empty 16 0))]
      else [.passAlongMessage outboundMessage, .outbound i totalLinkTransfer])

/-- `passAlongMessage`. A message to an address where nobody lives is dropped. -/
def passAlongMessage (w : CentralizedNetwork N) (message : Message UInt32) : List (NetworkCall N) :=
  match w.inhabitants.find? message.destination with
  | none => []
  | some app => [.call app (.base (.recv message))]

/-- `add`. -/
def add (w : CentralizedNetwork N) (attempts : List UInt32) (i : Fin N) : List (NetworkCall N) :=
  let address := w.getNewAddress attempts
  if address = 0 then [] else [.settle i address]

def settle (w : CentralizedNetwork N) (i : Fin N) (address : UInt32) : CentralizedNetwork N :=
  { w.setApplication i ((w.applications i).setBase { (w.applications i).toBaseApplication with address := address }) with
    inhabitants := w.inhabitants.insert address i }

/-- The effect of a call: the network after the body of the function, and the calls the body makes. -/
def exec (Γ : Ctx) (ch : NetworkChoice) (c : NetworkCall N) (w : CentralizedNetwork N) :
    Option (CentralizedNetwork N × List (NetworkCall N)) :=
  match c with
  | .app i c => (KademliaNode.exec Γ ch.toChoice c (w.applications i)).map
    (fun p => (w.setApplication i p.1, p.2.map (.app i)))
  | .call i c => some (w, [.app i c])
  | .tick => some (w, [.inhabitant none, .endTick])
  | .inhabitant after =>
    some (w, match w.inhabitants.next after with
      | none => []
      | some (address, app) => [.call app (.tick w.epoch), .outbound app 0, .inhabitant (some address)])
  | .outbound i totalLinkTransfer => some (w.outbound i totalLinkTransfer)
  | .passAlongMessage message => some (w, w.passAlongMessage message)
  | .endTick => some ({ w with epoch := w.epoch + 1 }, [])
  | .add i => some (w, w.add ch.attempts i)
  | .settle i address => some (w.settle i address, [.call i (.tick w.epoch)])
  | .remove i => some ({ w with inhabitants := w.inhabitants.erase (w.applications i).address }, [])

end CentralizedNetwork

namespace NetworkCall

variable {N : Nat}

/-- The calls that come in when nothing runs: those of whoever runs the simulation, to the network and to the public functions
of its nodes, which may also be killed. -/
def isEvent : NetworkCall N → Bool
  | .app _ c => c.isPublic || decide (c = .base .die)
  | .tick => true
  | .add _ => true
  | .remove _ => true
  | _ => false

/-- The calls that outside code may make while it runs: the public functions of any node. -/
def isReentry : NetworkCall N → Bool
  | .app _ c => c.isPublic
  | _ => false

def isUserCode : NetworkCall N → Bool
  | .app _ c => c.isUserCode
  | _ => false

end NetworkCall

/-- A network as a program. -/
def networkProgram (Γ : Ctx) (N : Nat) : Program (CentralizedNetwork N) (NetworkCall N) NetworkChoice where
  exec ch c w := CentralizedNetwork.exec Γ ch c w
  waits := NetworkCall.isUserCode
  event := NetworkCall.isEvent
  reentry := NetworkCall.isReentry

abbrev NetworkConfig (N : Nat) := Configuration (CentralizedNetwork N) (NetworkCall N) NetworkChoice

abbrev NetworkLabel (N : Nat) := Label (NetworkCall N) NetworkChoice

abbrev NetworkTrace (N : Nat) := List (NetworkCall N × NetworkChoice)

/-- A network that was just constructed, and the nodes that will be added to it. -/
def startNetwork {N : Nat} (config : Fin N → Config) (key : Fin N → KademliaKey) (maintenanceOffset : Fin N → Time)
    (linkLimit : UInt32) : NetworkConfig N :=
  ⟨CentralizedNetwork.init (fun i => KademliaNode.init (config i) (key i) (maintenanceOffset i)) linkLimit, [], []⟩

/-- A network for samples. -/
def sampleNetwork {N : Nat} (linkLimit : UInt32) : NetworkConfig N :=
  startNetwork (fun _ => ⟨20, 1000, 1000⟩) (fun i => .starting (if i.val = 0 then 0 else 128)) (fun _ => 700) linkLimit

/-! ## One node of a network -/

/-- The call, if it is one inside the node. -/
def NetworkCall.within {N : Nat} (i : Fin N) : NetworkCall N → List Call
  | .app j c => if j = i then [c] else []
  | _ => []

/-- The calls of the node that a step ran, with the choices made in them. -/
def runsIn {N : Nat} (i : Fin N) : NetworkCall N × NetworkChoice → NodeTrace
  | (.app j c, ch) => if j = i then [(c, ch.toChoice)] else []
  | (.outbound j _, ch) => if j = i then [(.base .unqueueOut, ch.toChoice)] else []
  | (.settle j address, ch) => if j = i then [(.base (.setAddress address), ch.toChoice)] else []
  | _ => []

/-- The configuration of one node of a network. -/
def nodeConfig {N : Nat} (i : Fin N) (m : NetworkConfig N) : NodeConfig :=
  ⟨m.state.applications i, m.stack.flatMap (NetworkCall.within i), m.trace.flatMap (runsIn i)⟩

/-- A step that draws a tag draws one that is not zero and that no node drew before. -/
def freshNetworkTags {N : Nat} (m : NetworkConfig N) (l : NetworkLabel N) : Bool :=
  match l, m.stack with
  | .run ch, .app i (.base (.send msg _ _ _)) :: _ =>
    msg.tag ≠ 0 || (m.state.applications i).dead ||
      (ch.tag ≠ 0 && (List.finRange N).all (fun j => ch.tag ∉ drawnTags (m.trace.flatMap (runsIn j))))
  | _, _ => true

/-- `k` steps one after the other, with the tags `t`, `t + 1` and so on to draw from, and one address. -/
def networkRuns {N : Nat} (attempt : UInt32) (t k : Nat) : List (NetworkLabel N) :=
  (List.range k).map (fun j => .run ⟨⟨UInt64.ofNat (t + j), 0, false, 0⟩, [attempt]⟩)

end Dhtsim
