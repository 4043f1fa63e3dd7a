import Dhtsim.Lib.Client
import Dhtsim.Model.Transcript

/-!
# The experiment

`main` of `main.cpp`, with `ChurnExperiment` and the `Experiment` of `experiment.hpp` that it extends: the code that adds the nodes
to a network, lets them store, and then replaces nodes and fetches what was stored, tick by tick. It is a client of the network
(`CallMachine.Client`), the whole program of the repository is the network in use by it. A lambda that `run` hands to `fetch` is
known by the number of the fetch.
-/

namespace Dhtsim

open CallMachine

/-- A line that the program prints on its standard output. -/
inductive Line where
  /-- `[E] T`, of `CentralizedNetwork::tick`. -/
  | transferred (epoch : Time) (totalTransferred : Nat)
  /-- `[E] R`, of `run`. -/
  | replaced (nodeIndex : Nat)
  /-- `[E] S`, of `recordFind`. -/
  | found (nodeIndex targetDataIndex : Nat) (latency : Time)
  /-- `[E] F`, of `recordFail`. -/
  | failed (nodeIndex targetDataIndex : Nat) (latency : Time)
deriving DecidableEq

/-- A fetch of `run`: the node that was asked, and what the two lambdas captured. -/
structure Fetch (N : Nat) where
  fetcher : Fin N
  nodeIndex : Nat
  targetDataIndex : Nat
  now : Time
deriving DecidableEq

/-- The state of `main` and of its experiment. A node that a run makes is one of `N` from the start, and `create` takes the next. -/
structure Experiment (N : Nat) where
  nodes : List (Fin N)
  /-- How many nodes were made. -/
  made : Nat
  waiting : List Bool
  storedDataKeys : List KademliaKey
  /-- The fetches that were started, the first one first. -/
  fetches : List (Fetch N)
  /-- The lines that were printed, the last one first. -/
  transcript : List Line

/-- What one step of the experiment draws: the node to replace, the node that searches, and what it searches. -/
structure ExperimentChoice where
  victim : Nat
  nodeIndex : Nat
  targetDataIndex : Nat
deriving DecidableEq

/-- The calls of `main` and of the experiment. -/
inductive ExperimentCall (N : Nat) where
  | main (nNodes : Nat)
  /-- `main`, once node zero was added. -/
  | startup (nNodes : Nat) (nodeZero : Fin N)
  /-- The rest of the loop of `main` over the nodes, from number `i` on. -/
  | addNodes (i nNodes : Nat) (nodeZeroAddress : UInt32)
  /-- `k` times `net.tick()`. -/
  | ticks (k : Nat)
  /-- The end of `main`: the experiment is made, `init` and `run` are called. -/
  | experiment
  | init
  /-- The rest of the loop of `init` over the nodes, from number `i` on. -/
  | storeAll (i : Nat)
  /-- The rest of the loop of `run`, from iteration `i` on. -/
  | run (i : Nat)
  /-- The part of an iteration of `run` that kills a node and replaces it. -/
  | replace
  /-- The same, once the new node was added. -/
  | install (nodeIndex : Nat) (newNode : Fin N)
  | introduce (n1 n2 : Fin N)
  /-- The part of an iteration of `run` that fetches. -/
  | search
deriving DecidableEq

/-- The numbers that are written out in `main.cpp`: the ticks before the experiment, those that `init` waits, and the iterations of
`run`. -/
structure Durations where
  warmup : Nat
  storing : Nat
  maxIterations : Nat
deriving DecidableEq

def Durations.source : Durations := ⟨100, 500, 50000⟩

/-- The bytes of `std::to_string(i)`. -/
def toBytes (i : Nat) : List UInt8 := (Nat.toDigits 10 i).map (fun c => UInt8.ofNat c.toNat)

namespace Experiment

variable {N : Nat}

/-- The state when `main` starts. -/
def start : Experiment N where
  nodes := []
  made := 0
  waiting := []
  storedDataKeys := []
  fetches := []
  transcript := []

def print (t : Experiment N) (line : Line) : Experiment N := { t with transcript := line :: t.transcript }

/-- `create`: the next node, if there is one left. -/
def create (t : Experiment N) : Option (Fin N × Experiment N) :=
  if h : t.made < N then some (⟨t.made, h⟩, { t with made := t.made + 1 }) else none

def recordFind (t : Experiment N) (epoch : Time) (f : Fetch N) : Experiment N :=
  { t with waiting := t.waiting.set f.nodeIndex false }.print (.found f.nodeIndex f.targetDataIndex (epoch - f.now))

def recordFail (t : Experiment N) (epoch : Time) (f : Fetch N) : Experiment N :=
  { t with waiting := t.waiting.set f.nodeIndex false }.print (.failed f.nodeIndex f.targetDataIndex (epoch - f.now))

/-- `store`: the call, and the key that it returns. -/
def store (Γ : Ctx) (storer : Fin N) (data : List UInt8) : NetworkCall N × KademliaKey :=
  (.app storer (.store data), Γ.sha1 data)

/-- `main`. -/
def main (t : Experiment N) (nNodes : Nat) : Option (Experiment N × List (NetworkCall N) × List (ExperimentCall N)) :=
  t.create.map (fun p => ({ p.2 with nodes := p.2.nodes ++ [p.1] }, [.add p.1], [.startup nNodes p.1]))

/-- The loop of `main` over the nodes. -/
def addNodes (t : Experiment N) (i nNodes : Nat) (nodeZeroAddress : UInt32) :
    Option (Experiment N × List (NetworkCall N) × List (ExperimentCall N)) :=
  if i < nNodes then
    t.create.map (fun p => ({ p.2 with nodes := p.2.nodes ++ [p.1] },
      [.add p.1, .app p.1 (.ping nodeZeroAddress .empty)], [.addNodes (i + 1) nNodes nodeZeroAddress]))
  else some (t, [], [])

/-- The loop of `init` over the nodes. -/
def storeAll (Γ : Ctx) (t : Experiment N) (i : Nat) : Experiment N × List (NetworkCall N) × List (ExperimentCall N) :=
  match t.nodes[i]? with
  | none => (t, [], [])
  | some node =>
    let r := store Γ node (toBytes i)
    ({ t with storedDataKeys := t.storedDataKeys ++ [r.2] }, [r.1], [.storeAll (i + 1)])

/-- Kill a node, other than node zero, and replace it with another. -/
def replace (t : Experiment N) (nodeIndex : Nat) :
    Option (Experiment N × List (NetworkCall N) × List (ExperimentCall N)) :=
  if nodeIndex = 0 then none
  else
    t.nodes[nodeIndex]?.bind (fun node => (t.print (.replaced nodeIndex)).create.map (fun p =>
      (p.2, [.app node (.base .die), .remove node, .add p.1], [.install nodeIndex p.1])))

def install (t : Experiment N) (nodeIndex : Nat) (newNode : Fin N) :
    Option (Experiment N × List (NetworkCall N) × List (ExperimentCall N)) :=
  let nodes := t.nodes.set nodeIndex newNode
  nodes[0]?.map (fun nodeZero =>
    ({ t with nodes := nodes, waiting := t.waiting.set nodeIndex false }, [], [.introduce newNode nodeZero]))

/-- Let a node fetch, unless it is waiting. -/
def search (t : Experiment N) (epoch : Time) (nodeIndex targetDataIndex : Nat) :
    Option (Experiment N × List (NetworkCall N) × List (ExperimentCall N)) :=
  match t.nodes[nodeIndex]?, t.waiting[nodeIndex]?, t.storedDataKeys[targetDataIndex]? with
  | some node, some false, some key =>
    some ({ t with
      waiting := t.waiting.set nodeIndex true
      fetches := t.fetches ++ [⟨node, nodeIndex, targetDataIndex, epoch⟩] },
      [.app node (fetch key (.of t.fetches.length t.fetches.length))], [])
  | some _, some true, some _ => some (t, [], [])
  | _, _, _ => none

/-- The effect of a call of the experiment. -/
def exec (Γ : Ctx) (D : Durations) (r : ExperimentChoice) (d : ExperimentCall N) (s : RecordedNetwork N) (t : Experiment N) :
    Option (Experiment N × List (NetworkCall N) × List (ExperimentCall N)) :=
  match d with
  | .main nNodes => t.main nNodes
  | .startup nNodes nodeZero =>
    some (t, [], [.addNodes 1 nNodes (s.network.applications nodeZero).address, .ticks D.warmup, .experiment])
  | .addNodes i nNodes nodeZeroAddress => t.addNodes i nNodes nodeZeroAddress
  | .ticks 0 => some (t, [], [])
  | .ticks (k + 1) => some (t, [.tick], [.ticks k])
  | .experiment => some ({ t with waiting := List.replicate t.nodes.length false }, [], [.init, .run 0])
  | .init => some ({ t with storedDataKeys := [] }, [], [.storeAll 0, .ticks D.storing])
  | .storeAll i => some (t.storeAll Γ i)
  | .run i =>
    some (t, [], if i < D.maxIterations then
      (if i % 10 = 0 then [.replace] else []) ++ [.search, .ticks 1, .run (i + 1)] else [])
  | .replace => t.replace r.victim
  | .install nodeIndex newNode => t.install nodeIndex newNode
  | .introduce n1 n2 => some (t, [.app n1 (.ping (s.network.applications n2).address .empty)], [])
  | .search => t.search s.network.epoch r.nodeIndex r.targetDataIndex

/-- What a call of the network prints, or calls of the experiment's lambdas. -/
def watch (c : NetworkCall N) (s : RecordedNetwork N) (t : Experiment N) : Experiment N :=
  match c with
  | .app _ (.fetched fn value) =>
    match t.fetches[fn]? with
    | none => t
    | some f => if value.isSome then t.recordFind s.network.epoch f else t.recordFail s.network.epoch f
  | .endTick => t.print (.transferred s.network.epoch s.totalTransferred)
  | _ => t

end Experiment

/-- The code that uses the network. -/
def experimentClient (Γ : Ctx) (D : Durations) (N : Nat) : Client (RecordedNetwork N) (NetworkCall N) NetworkChoice (Experiment N)
    (ExperimentCall N) ExperimentChoice where
  exec := Experiment.exec Γ D
  watch := Experiment.watch

/-- The whole program. -/
def experimentProgram (Γ : Ctx) (D : Durations) (N : Nat) : Program (RecordedNetwork N × Experiment N)
    (ClientCall (NetworkCall N) (ExperimentCall N)) (NetworkChoice × ExperimentChoice) :=
  (experimentClient Γ D N).program (recordedProgram Γ N)

abbrev ExperimentConfig (N : Nat) := Configuration (RecordedNetwork N × Experiment N)
  (ClientCall (NetworkCall N) (ExperimentCall N)) (NetworkChoice × ExperimentChoice)

abbrev ExperimentLabel (N : Nat) := Label (ClientCall (NetworkCall N) (ExperimentCall N)) (NetworkChoice × ExperimentChoice)

/-- The program when `main` is called, with the configuration and the number of nodes that the options give. -/
def startExperiment {N : Nat} (config : Config) (key : Fin N → KademliaKey) (maintenanceOffset : Fin N → Time)
    (linkLimit : UInt32) (nNodes : Nat) : ExperimentConfig N :=
  ⟨((startRecorded (fun _ => config) key maintenanceOffset linkLimit).state, .start), [.own (.main nNodes)], []⟩

/-- The network of the program. -/
def ExperimentConfig.network {N : Nat} (Γ : Ctx) (m : ExperimentConfig N) : NetworkConfig N :=
  RecordedConfig.forget (usedConfig (recordedProgram Γ N) m)

/-- `k` steps one after the other, with the tags `t`, `t + 1` and so on to draw from, and as many addresses. -/
def experimentRuns {N : Nat} (r : ExperimentChoice) (t k : Nat) : List (ExperimentLabel N) :=
  (List.range k).map (fun j => .run (⟨⟨UInt64.ofNat (t + j), 0, false, 0⟩, [UInt32.ofNat (t + j)]⟩, r))

end Dhtsim
