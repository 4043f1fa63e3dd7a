import Dhtsim.Model.Network

/-!
# Transcripts

What `CentralizedNetwork::tick` counts and prints: `totalTransferred`, the bytes of the tick so far, and the lines
`[E] T epoch bytes` that `results/plots.py` reads. And what becomes of one call of `refreshBuckets`: the lookups that it starts
and that are completed, and its reports. They are kept beside the network and the node, whose steps do not depend on them.
-/

namespace Dhtsim

open CallMachine

/-! ## The transcript of a network -/

/-- A network with its count of bytes and the records it printed, the last one first. -/
structure RecordedNetwork (N : Nat) where
  network : CentralizedNetwork N
  totalTransferred : Nat
  records : List (Time × Nat)

/-- `totalLinkTransfer` when the loop over the outbound messages ends with this step, and nothing when it goes on. -/
def CentralizedNetwork.linkTransferred {N : Nat} (w : CentralizedNetwork N) (i : Fin N) (totalLinkTransfer : Nat) :
    Option Nat :=
  match (w.applications i).outqueue with
  | [] => some totalLinkTransfer
  | outboundMessage :: _ =>
    let size := outboundMessage.data.length
    let totalLinkTransfer := totalLinkTransfer + size
    if w.linkLimit.toNat < size then some totalLinkTransfer
    else if w.linkLimit.toNat < totalLinkTransfer then some totalLinkTransfer
    else none

/-- What a call of the network counts or prints. -/
def RecordedNetwork.record {N : Nat} (s : RecordedNetwork N) : NetworkCall N → RecordedNetwork N
  | .tick => { s with totalTransferred := 0 }
  | .outbound i totalLinkTransfer =>
    { s with totalTransferred := s.totalTransferred + (s.network.linkTransferred i totalLinkTransfer).getD 0 }
  | .endTick => { s with records := (s.network.epoch, s.totalTransferred) :: s.records }
  | _ => s

/-- A network that keeps its transcript, as a program. -/
def recordedProgram (Γ : Ctx) (N : Nat) : Program (RecordedNetwork N) (NetworkCall N) NetworkChoice where
  exec ch c s := (CentralizedNetwork.exec Γ ch c s.network).map (fun p => ({ s.record c with network := p.1 }, p.2))
  waits := NetworkCall.isUserCode
  event := NetworkCall.isEvent
  reentry := NetworkCall.isReentry

abbrev RecordedConfig (N : Nat) := Configuration (RecordedNetwork N) (NetworkCall N) NetworkChoice

/-- A network that was just constructed, with an empty transcript. -/
def startRecorded {N : Nat} (config : Fin N → Config) (key : Fin N → KademliaKey) (maintenanceOffset : Fin N → Time)
    (linkLimit : UInt32) : RecordedConfig N :=
  ⟨⟨(startNetwork config key maintenanceOffset linkLimit).state, 0, []⟩, [], []⟩

/-- The network without its transcript. -/
def RecordedConfig.forget {N : Nat} (m : RecordedConfig N) : NetworkConfig N := ⟨m.state.network, m.stack, m.trace⟩

/-! ## The transcript of a refresh -/

/-- What happens in a call of `refreshBuckets`. -/
inductive RefreshEvent where
  /-- The lookup for a stale bucket is started. Whether it ends before `findNodes` returns. -/
  | started (atOnce : Bool)
  /-- `cb_fn` ran. -/
  | completed
  /-- `cb_fn` called `cb.success`. -/
  | reported
deriving DecidableEq

/-- A node with the transcript of one call of `refreshBuckets`, the first event first. -/
structure WatchedNode where
  node : KademliaNode
  log : List RefreshEvent

namespace KademliaNode

/-- Whether a lookup for the target ends before `findNodes` returns: it is a new one, and there is nobody to ask. -/
def endsAtOnce (Γ : Ctx) (n : KademliaNode) (target : KademliaKey) : Bool :=
  (n.nodesBeingFound.find? target).isNone && (n.getNearest Γ n.config.k target n.key).isEmpty

/-- Whether `cb_fn` of `refreshBuckets` finds that it waits for nothing more. -/
def doneWaiting (n : KademliaNode) (waiting : Nat) : Bool :=
  decide ((n.refreshWaiting.modify waiting (· - 1))[waiting]? = some 0)

/-- What a call means for the `refreshBuckets` that shares the counter. -/
def refreshEvents (Γ : Ctx) (ch : Choice) (waiting : Nat) (n : KademliaNode) : Call → List RefreshEvent
  | .refreshSingleBucket bucketIndex cb =>
    (cb.successFns.filter (fun fn => decide (fn.waiting = waiting))).map
      (fun _ => .started (n.endsAtOnce Γ (n.refreshTarget bucketIndex (randomizeKey Γ ch))))
  | .refreshed fn =>
    if fn.waiting = waiting then .completed :: if n.doneWaiting waiting then [.reported] else [] else []
  | _ => []

end KademliaNode

/-- A node that keeps the transcript of the `refreshBuckets` with a counter, as a program. -/
def watchedProgram (Γ : Ctx) (waiting : Nat) : Program WatchedNode Call Choice where
  exec ch c s :=
    (KademliaNode.exec Γ ch c s.node).map (fun p => (⟨p.1, s.log ++ s.node.refreshEvents Γ ch waiting c⟩, p.2))
  waits := Call.isUserCode
  event := Call.isEvent
  reentry := Call.isPublic

abbrev WatchedConfig := Configuration WatchedNode Call Choice

/-- A node at the call of `refreshBuckets`. -/
def startRefresh (n : KademliaNode) (cb : CallbackSet UserFn) (tr : NodeTrace) : WatchedConfig :=
  ⟨⟨n, []⟩, [.refreshBuckets cb], tr⟩

end Dhtsim
