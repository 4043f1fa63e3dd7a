import Dhtsim.Model.Base
import Mathlib.Data.List.FinRange
import Mathlib.Logic.Function.Basic

/-!
# The Kademlia node

`KademliaNode` of `kademlia/kademlia.hpp` and `kademlia/kademlia.cpp`. A lambda of the source is a value that names it and
holds what it captured (`PingFn`, `SendFn`, `RefreshFn`, `FindNodesFn`); a function handed in from outside is a `UserFn`. A
function that calls back, or that is run by a callback, is a call (`Call`). `KademliaNode.exec` gives the effect of each: the
node after the body, and the calls the body makes, in order. It is `none` where the source is undefined.
-/

namespace Dhtsim

/-- The message types (`KademliaNode::MessageType`). -/
inductive MessageType where
  | ping
  | findNodes
  | findValue
  | store
deriving DecidableEq

def MessageType.code : MessageType → UInt32
  | .ping => 0
  | .findNodes => 1
  | .findValue => 2
  | .store => 3

def MessageType.ofCode (type : UInt32) : Option MessageType :=
  if type = 0 then some .ping
  else if type = 1 then some .findNodes
  else if type = 2 then some .findValue
  else if type = 3 then some .store
  else none

/-- `KademliaNode::Config`, without the concurrency parameter, which nothing reads. -/
structure Config where
  k : Nat
  maintenancePeriod : Time
  bucketRefreshPeriod : Time
deriving DecidableEq

/-- A function handed in from outside, known by a number. -/
abbrev UserFn := Nat

/-- The functions of a `PingCallbackSet`. -/
inductive PingFn where
  /-- `cbSuccess` of `updateOrAddToBucket`. -/
  | drop
  /-- `cbFail` of `updateOrAddToBucket`. -/
  | evict (bucketIndex : Fin keyLenBits) (newEntry : BucketEntry)
  | user (fn : UserFn)
deriving DecidableEq

/-- The functions of a `SendCallbackSet`: `cb_success` and `cb_failure` of `ping`, `cbSuccess` and `cbFailure` of
`findNodesStep`. -/
inductive SendFn where
  | pingSuccess (otherAddress : UInt32) (callback : CallbackSet PingFn)
  | pingFailure (otherAddress : UInt32) (callback : CallbackSet PingFn)
  | findSuccess (target : KademliaKey) (top : BucketEntry)
  | findFailure (target : KademliaKey) (top : BucketEntry)
deriving DecidableEq

/-- `cb_fn` of `refreshBuckets`, with the number of the counter it shares. -/
structure RefreshFn where
  cb : CallbackSet UserFn
  waiting : Nat
deriving DecidableEq

/-- The functions of a `FindNodesCallbackSet`. -/
inductive FindNodesFn where
  /-- `cb_success` of `store`. -/
  | storeAt (value : List UInt8)
  /-- `cb_failure` of `store`. -/
  | drop
  /-- `cb_fn` of `refreshSingleBucket`. -/
  | refresh (cb : CallbackSet RefreshFn)
  /-- `cb_success` of `Experiment<KademliaNode>::fetch` (`main.cpp`). -/
  | fetchSuccess (cb : CallbackSet UserFn)
  /-- `cb_fail` of `Experiment<KademliaNode>::fetch`. -/
  | fetchFailure (cb : CallbackSet UserFn)
  | user (fn : UserFn)
deriving DecidableEq

/-- An entry of the node's hash table. -/
structure TableEntry where
  value : List UInt8
  lastTouch : Time
  added : Time
deriving DecidableEq

/-- The progress of one `findNodes` or `findValue` operation. -/
structure NodeFinder where
  findValue : Bool
  target : KademliaKey
  findNodesCallback : CallbackSet FindNodesFn
  waiting : UInt32
  uncontacted : List BucketEntry
  contacted : List BucketEntry
  seen : List KademliaKey
deriving DecidableEq

namespace NodeFinder

def new (findValue : Bool) (target : KademliaKey) (callback : CallbackSet FindNodesFn) : NodeFinder where
  findValue := findValue
  target := target
  findNodesCallback := callback
  waiting := 0
  uncontacted := []
  contacted := []
  seen := []

/-- Add the newly learned-of nodes to the uncontacted list, but only if they are unseen. -/
def learn (nf : NodeFinder) : List BucketEntry → NodeFinder
  | [] => nf
  | entry :: newNodes =>
    if entry.key ∈ nf.seen then nf.learn newNodes
    else
      { nf with uncontacted := nf.uncontacted ++ [entry], seen := entry.key :: nf.seen : NodeFinder }.learn newNodes

end NodeFinder

/-- The state of a node. `refreshWaiting` holds the counters that `refreshBuckets` allocated. -/
structure KademliaNode extends BaseApplication UInt32 SendFn where
  config : Config
  key : KademliaKey
  buckets : Fin keyLenBits → List BucketEntry
  table : SortedMap KademliaKey TableEntry
  pingsInProgress : SortedMap UInt32 (CallbackSet PingFn)
  nodesBeingFound : SortedMap KademliaKey NodeFinder
  maintenanceOffset : Time
  refreshWaiting : List UInt32

/-- The calls of a node. -/
inductive Call where
  | base (c : BaseCall UInt32 SendFn)
  /-- `KademliaNode::tick`. -/
  | tick (time : Time)
  /-- The maintenance branch of `tick`. -/
  | maintenanceCheck
  /-- The refresh branch of `tick`. -/
  | refreshCheck
  /-- `KademliaNode::handleMessage(m)` after the call to the base. -/
  | dispatch (m : Message UInt32)
  /-- `KademliaNode::handleMessage(m, fm)`. -/
  | handleFindNodes (m : Message UInt32) (fm : FindNodesMessage)
  /-- The `KM_STORE` branch of `handleMessage` for a request, after the sender was observed. -/
  | handleStore (m : Message UInt32) (sm : StoreMessage)
  | observe (otherAddress : UInt32) (otherKey : KademliaKey)
  | ping (otherAddress : UInt32) (callback : CallbackSet PingFn)
  /-- A function of a `PingCallbackSet` runs. -/
  | pinged (success : Bool) (fn : PingFn)
  /-- `findNodes`, or `findValue` when the flag is set. -/
  | lookup (findValue : Bool) (target : KademliaKey) (callback : CallbackSet FindNodesFn)
  | findNodesStep (target : KademliaKey) (newNodes : List BucketEntry)
  | findNodesFail (target : KademliaKey)
  | findNodesFinish (target : KademliaKey)
  /-- `findNodesFinish(target, value)`. -/
  | findValueFinish (target : KademliaKey) (value : List UInt8)
  /-- A function of a `FindNodesCallbackSet` runs. -/
  | found (success : Bool) (fn : FindNodesFn) (result : FindNodesMessage)
  /-- `nodes_being_found.erase`, after the callbacks of the lookup have run. -/
  | eraseFinder (target : KademliaKey)
  /-- `store(value)`. -/
  | store (value : List UInt8)
  /-- `store(target_address, value)`. -/
  | storeAt (targetAddress : UInt32) (value : List UInt8)
  | runTableMaintenance
  | refreshBuckets (cb : CallbackSet UserFn)
  /-- The loop of `refreshBuckets`, from bucket `i` on. -/
  | refreshLoop (i : Nat) (cb : CallbackSet UserFn) (waiting : Nat)
  | refreshSingleBucket (bucketIndex : Nat) (cb : CallbackSet RefreshFn)
  /-- A function of a `RefreshCallbackSet` of `refreshSingleBucket` runs. -/
  | refreshed (fn : RefreshFn)
  /-- A function handed to `refreshBuckets` runs. -/
  | refreshDone (fn : UserFn)
  /-- A function handed to `fetch` runs: with the value, or without one when the fetch failed. -/
  | fetched (fn : UserFn) (value : Option (List UInt8))
  /-- Outside code is running. -/
  | userCode
deriving DecidableEq

namespace KademliaNode

/-- `KademliaNode(config)`, before it has an address: its key and its offset were drawn at random. -/
def init (config : Config) (key : KademliaKey) (maintenanceOffset : Time) : KademliaNode where
  address := 0
  epoch := 0
  dead := false
  inqueue := []
  outqueue := []
  callbacks := .empty
  config := config
  key := key
  buckets := fun _ => []
  table := .empty
  pingsInProgress := .empty
  nodesBeingFound := .empty
  maintenanceOffset := maintenanceOffset
  refreshWaiting := []

def setBase (n : KademliaNode) (app : BaseApplication UInt32 SendFn) : KademliaNode := { n with toBaseApplication := app }

def setBucket (n : KademliaNode) (i : Fin keyLenBits) (bucket : List BucketEntry) : KademliaNode :=
  { n with buckets := Function.update n.buckets i bucket }

def setFinder (n : KademliaNode) (target : KademliaKey) (nf : NodeFinder) : KademliaNode :=
  { n with nodesBeingFound := n.nodesBeingFound.insert target nf }

/-! ## Buckets -/

/-- `getNearest`. Its loop runs over the first `keyLen` buckets. -/
def getNearest (Γ : Ctx) (n : KademliaNode) (count : Nat) (target exclude : KademliaKey) : List BucketEntry :=
  let entries := (List.finRange keyLen).flatMap
    (fun i => (n.buckets (i.castLE (by decide))).filter (fun entry => entry.key ≠ exclude))
  (sortByDistanceTo Γ target entries).take count

/-- `updateOrAddToBucket`. The index is at most `keyLenBits`, where the source returns. -/
def updateOrAddToBucket (n : KademliaNode) (bucketIndex : Nat) (newEntry : BucketEntry) :
    Option (KademliaNode × List Call) :=
  if h : bucketIndex < keyLenBits then
    let i : Fin keyLenBits := ⟨bucketIndex, h⟩
    let bucket := n.buckets i
    if bucket.any (fun e => e.key = newEntry.key) then
      some (n.setBucket i (bucket.eraseP (fun e => e.key = newEntry.key) ++ [newEntry]), [])
    else if bucket.length < n.config.k then some (n.setBucket i (bucket ++ [newEntry]), [])
    else
      match bucket with
      -- `bucket[0]` of an empty vector: only with `k = 0`.
      | [] => none
      | lrs :: _ => some (n, [.ping lrs.address (.of .drop (.evict i newEntry))])
  else some (n, [])

def observe (n : KademliaNode) (otherAddress : UInt32) (otherKey : KademliaKey) : Option (KademliaNode × List Call) :=
  n.updateOrAddToBucket (longestMatchingPrefix n.key otherKey) ⟨otherKey, otherAddress, n.epoch⟩

/-- `unobserve`: drop every entry with the address. -/
def unobserve (n : KademliaNode) (otherAddress : UInt32) : KademliaNode :=
  { n with buckets := fun i => (n.buckets i).filter (fun e => e.address ≠ otherAddress) }

/-- `cbFail` of `updateOrAddToBucket`: erase the first entry of the bucket, append the new one. -/
def evict (n : KademliaNode) (bucketIndex : Fin keyLenBits) (newEntry : BucketEntry) : Option KademliaNode :=
  match n.buckets bucketIndex with
  -- `erase(begin())` on an empty vector.
  | [] => none
  | _ :: rest => some (n.setBucket bucketIndex (rest ++ [newEntry]))

/-! ## Pings -/

def ping (Γ : Ctx) (n : KademliaNode) (otherAddress : UInt32) (callback : CallbackSet PingFn) :
    KademliaNode × List Call :=
  match n.pingsInProgress.find? otherAddress with
  | some cb => ({ n with pingsInProgress := n.pingsInProgress.insert otherAddress (cb.add callback) }, [])
  | none =>
    let m : Message UInt32 :=
      ⟨MessageType.ping.code, n.address, otherAddress, 0, Γ.ping.write (PingMessage.ping n.key)⟩
    ({ n with pingsInProgress := n.pingsInProgress.insert otherAddress callback },
      [.base (.send m (.of (.pingSuccess otherAddress callback) (.pingFailure otherAddress callback)) 1 2)])

/-! ## Lookups -/

/-- `findNodes` and `findValue`, with `findNodesStart`. -/
def lookup (Γ : Ctx) (n : KademliaNode) (findValue : Bool) (target : KademliaKey) (callback : CallbackSet FindNodesFn) :
    KademliaNode × List Call :=
  match n.nodesBeingFound.find? target with
  | some nf => (n.setFinder target { nf with findNodesCallback := nf.findNodesCallback.add callback }, [])
  | none =>
    (n.setFinder target (NodeFinder.new findValue target callback),
      [.findNodesStep target (n.getNearest Γ n.config.k target n.key)])

/-- The `FIND_NODES` request of a step. -/
def findNodesRequest (Γ : Ctx) (n : KademliaNode) (target : KademliaKey) (findValue : Bool) (top : BucketEntry) :
    Message UInt32 where
  type := MessageType.findNodes.code
  originator := n.address
  destination := top.address
  tag := 0
  data := Γ.findNodes.write
    { sender := n.key, request := true, findValue := findValue, target := target, numFound := 0, nearest := [],
      valueFound := false, value := [] }

def findNodesStep (Γ : Ctx) (n : KademliaNode) (target : KademliaKey) (newNodes : List BucketEntry) :
    KademliaNode × List Call :=
  match n.nodesBeingFound.find? target with
  | none => (n, [])
  | some nf =>
    let nf := nf.learn newNodes
    if nf.uncontacted.isEmpty then
      (n.setFinder target nf,
        if nf.waiting = 0 then [if nf.findValue then .findNodesFail target else .findNodesFinish target] else [])
    else
      match sortByDistanceTo Γ target nf.uncontacted with
      | [] => (n.setFinder target nf, [])
      | top :: uncontacted =>
        (n.setFinder target { nf with uncontacted := uncontacted, waiting := nf.waiting + 1 },
          [.base (.send (n.findNodesRequest Γ target nf.findValue top)
            (.of (.findSuccess target top) (.findFailure target top)) 1 2)])

/-- `cbSuccess` of `findNodesStep`. -/
def findSuccess (Γ : Ctx) (ch : Choice) (n : KademliaNode) (target : KademliaKey) (top : BucketEntry)
    (m : Message UInt32) : KademliaNode × List Call :=
  match n.nodesBeingFound.find? target with
  | none => (n, [])
  | some nf =>
    let fm := Γ.findNodes.read m.data (FindNodesMessage.unset ch)
    (n.setFinder target { nf with contacted := nf.contacted ++ [top], waiting := nf.waiting - 1 },
      [if fm.findValue && fm.valueFound then .findValueFinish target fm.value else .findNodesStep target fm.nearest])

/-- `cbFailure` of `findNodesStep`. -/
def findFailure (n : KademliaNode) (target : KademliaKey) (top : BucketEntry) : KademliaNode × List Call :=
  let n := n.unobserve top.address
  match n.nodesBeingFound.find? target with
  | none => (n, [])
  | some nf => (n.setFinder target { nf with waiting := nf.waiting - 1 }, [.findNodesStep target []])

/-- The callbacks of a lookup run, then its finder is erased. -/
def complete (nf : NodeFinder) (target : KademliaKey) (success : Bool) (result : FindNodesMessage) : List Call :=
  (nf.findNodesCallback.fns success).map (fun fn => .found success fn result) ++ [.eraseFinder target]

/-- What `findNodesFail` hands to the failure callbacks. -/
def failResult (ch : Choice) : FindNodesMessage :=
  { FindNodesMessage.unset ch with findValue := true, valueFound := false }

def findNodesFail (ch : Choice) (n : KademliaNode) (target : KademliaKey) : Option (KademliaNode × List Call) :=
  (n.nodesBeingFound.find? target).map (fun nf => (n, complete nf target false (failResult ch)))

/-- What `findNodesFinish` hands to the success callbacks. -/
def finishResult (contacted : List BucketEntry) (ch : Choice) : FindNodesMessage :=
  { FindNodesMessage.unset ch with
    request := false, findValue := false, numFound := UInt32.ofNat contacted.length, nearest := contacted }

def findNodesFinish (Γ : Ctx) (ch : Choice) (n : KademliaNode) (target : KademliaKey) :
    Option (KademliaNode × List Call) :=
  (n.nodesBeingFound.find? target).map (fun nf =>
    let contacted := sortByDistanceTo Γ target nf.contacted
    (n.setFinder target { nf with contacted := contacted }, complete nf target true (finishResult contacted ch)))

/-- What `findNodesFinish` with a value hands to the success callbacks. -/
def valueResult (value : List UInt8) (ch : Choice) : FindNodesMessage :=
  { FindNodesMessage.unset ch with request := false, findValue := true, valueFound := true, value := value }

def findValueFinish (ch : Choice) (n : KademliaNode) (target : KademliaKey) (value : List UInt8) :
    Option (KademliaNode × List Call) :=
  (n.nodesBeingFound.find? target).map (fun nf => (n, complete nf target true (valueResult value ch)))

/-- What a function of a lookup does. -/
def found (fn : FindNodesFn) (result : FindNodesMessage) : List Call :=
  match fn with
  | .storeAt value => result.nearest.map (fun entry => .storeAt entry.address value)
  | .drop => []
  | .refresh cb => cb.successFns.map .refreshed
  | .fetchSuccess cb =>
    if result.valueFound then cb.successFns.map (fun fn => .fetched fn (some result.value)) else []
  | .fetchFailure cb => cb.failureFns.map (fun fn => .fetched fn none)
  | .user _ => [.userCode]

/-! ## Values -/

/-- `store(target_address, value)`. -/
def storeAt (Γ : Ctx) (n : KademliaNode) (targetAddress : UInt32) (value : List UInt8) : List Call :=
  let m : Message UInt32 :=
    ⟨MessageType.store.code, n.address, targetAddress, 0, Γ.store.write ⟨true, n.key, value⟩⟩
  [.base (.send m .empty 16 0)]

/-- `store(value)`. -/
def store (Γ : Ctx) (value : List UInt8) : List Call :=
  [.lookup false (Γ.sha1 value) (.of (.storeAt value) .drop)]

def storeValue (n : KademliaNode) (storeUnder : KademliaKey) (value : List UInt8) : KademliaNode :=
  match n.table.find? storeUnder with
  | some entry => { n with table := n.table.insert storeUnder { entry with lastTouch := n.epoch } }
  | none => { n with table := n.table.insert storeUnder ⟨value, n.epoch, n.epoch⟩ }

/-- Whether `runTableMaintenance` erases the entry. -/
def expired (n : KademliaNode) (entry : TableEntry) : Bool :=
  decide (n.config.maintenancePeriod + entry.lastTouch ≤ n.epoch)

/-- `runTableMaintenance`: erase the stale entries, send the others to the nearest contacts. -/
def runTableMaintenance (Γ : Ctx) (n : KademliaNode) : KademliaNode × List Call :=
  let table := n.table.filter (fun e => !n.expired e.2)
  ({ n with table := table }, table.entries.flatMap (fun e =>
    if e.2.added ≤ e.2.lastTouch then
      (n.getNearest Γ n.config.k e.1 n.key).map (fun entry => .storeAt entry.address e.2.value)
    else []))

/-! ## Messages -/

/-- `handleMessage(m, fm)` on a request: the answer. -/
def findNodesReply (Γ : Ctx) (n : KademliaNode) (fm : FindNodesMessage) : FindNodesMessage :=
  match n.table.find? fm.target, fm.findValue with
  | some entry, true => { fm with valueFound := true, value := entry.value, request := false, sender := n.key }
  | _, _ =>
    let entries := n.getNearest Γ n.config.k fm.target fm.sender
    { fm with
      valueFound := false, numFound := UInt32.ofNat entries.length, nearest := entries, request := false,
      sender := n.key }

def handleFindNodes (Γ : Ctx) (n : KademliaNode) (m : Message UInt32) (fm : FindNodesMessage) : List Call :=
  if fm.request then
    let resp : Message UInt32 :=
      { m with
        data := Γ.findNodes.write (n.findNodesReply Γ fm), destination := m.originator, originator := m.destination }
    [.base (.send resp .empty 16 0)]
  else fm.nearest.map (fun entry => .observe entry.address entry.key)

def handleStore (Γ : Ctx) (n : KademliaNode) (m : Message UInt32) (sm : StoreMessage) : KademliaNode × List Call :=
  let resp : Message UInt32 :=
    { m with
      originator := m.destination, destination := m.originator, data := Γ.store.write ⟨false, n.key, []⟩ }
  (n.storeValue (Γ.sha1 sm.value) sm.value, [.base (.send resp .empty 16 0)])

/-- The `switch` of `handleMessage`. -/
def dispatch (Γ : Ctx) (ch : Choice) (n : KademliaNode) (m : Message UInt32) : List Call :=
  match MessageType.ofCode m.type with
  | some .ping =>
    let pm := Γ.ping.read m.data (PingMessage.ping KademliaKey.zero)
    let resp : Message UInt32 :=
      { m with
        destination := m.originator, originator := n.address, data := Γ.ping.write (PingMessage.pong n.key) }
    .observe m.originator pm.sender :: if pm.pingOrPong then [.base (.send resp .empty 16 0)] else []
  | some .findNodes =>
    if m.data.length < 1 + keyLen + 4 then []
    else
      let fm := Γ.findNodes.read m.data (FindNodesMessage.unset ch)
      [.observe m.originator fm.sender, .handleFindNodes m fm]
  | some .store =>
    let sm := Γ.store.read m.data (StoreMessage.unset ch)
    .observe m.originator sm.sender :: if sm.request then [.handleStore m sm] else []
  | some .findValue => []
  | none => []

/-! ## Refreshing -/

/-- The loop of `refreshSingleBucket` from byte `j` on. As the source has it, the loop goes on while `j > KEY_LEN`. -/
def refreshKeyLoop (bucketIndex : Nat) (myKey : List UInt8) : Nat → Nat → List UInt8 → List UInt8
  | 0, _, k => k
  | fuel + 1, j, k =>
    if j > keyLen then
      if j * 8 < bucketIndex then refreshKeyLoop bucketIndex myKey fuel (j + 1) (k.set j (myKey.getD j 0))
      else
        let piece := j * 8 - bucketIndex
        let myKeyMask := (1 <<< 8) - (1 <<< piece)
        let keyMask := (1 <<< piece) - 1
        k.set j (UInt8.ofNat (((myKey.getD j 0).toNat &&& myKeyMask) ||| ((k.getD j 0).toNat &&& keyMask)))
    else k

theorem length_refreshKeyLoop (bucketIndex : Nat) (myKey : List UInt8) (fuel j : Nat) (k : List UInt8) :
    (refreshKeyLoop bucketIndex myKey fuel j k).length = k.length := by
  induction fuel generalizing j k with
  | zero => rfl
  | succ fuel ih =>
    simp only [refreshKeyLoop]
    split_ifs
    · rw [ih, List.length_set]
    · exact List.length_set
    · rfl

/-- The target that `refreshSingleBucket` looks up, made from a random key. -/
def refreshTarget (n : KademliaNode) (bucketIndex : Nat) (k : KademliaKey) : KademliaKey :=
  ⟨refreshKeyLoop bucketIndex n.key.key (keyLen + 1) 0 k.key, (length_refreshKeyLoop ..).trans k.length_key⟩

/-- Whether no entry of the bucket was seen within the refresh period. -/
def stale (n : KademliaNode) (bucket : List BucketEntry) : Bool :=
  !bucket.isEmpty && bucket.all (fun entry => !decide (n.epoch < entry.lastSeen + n.config.bucketRefreshPeriod))

def refreshLoop (n : KademliaNode) (i : Nat) (cb : CallbackSet UserFn) (waiting : Nat) : KademliaNode × List Call :=
  if h : i < keyLenBits then
    if n.stale (n.buckets ⟨i, h⟩) then
      ({ n with refreshWaiting := n.refreshWaiting.modify waiting (· + 1) },
        [.refreshSingleBucket i (.of ⟨cb, waiting⟩ ⟨cb, waiting⟩), .refreshLoop (i + 1) cb waiting])
    else (n, [.refreshLoop (i + 1) cb waiting])
  else (n, [])

/-- `cb_fn` of `refreshBuckets`. -/
def refreshed (n : KademliaNode) (fn : RefreshFn) : KademliaNode × List Call :=
  let counters := n.refreshWaiting.modify fn.waiting (· - 1)
  ({ n with refreshWaiting := counters },
    if counters[fn.waiting]? = some 0 then fn.cb.successFns.map .refreshDone else [])

/-! ## Calls -/

/-- What a callback of a sent message does. -/
def sendCallback (Γ : Ctx) (ch : Choice) (n : KademliaNode) (fn : SendFn) (m : Message UInt32) : KademliaNode × List Call :=
  match fn with
  | .pingSuccess otherAddress callback =>
    ({ n with pingsInProgress := n.pingsInProgress.erase otherAddress }, callback.successFns.map (.pinged true))
  | .pingFailure otherAddress callback =>
    ({ n with pingsInProgress := n.pingsInProgress.erase otherAddress }.unobserve otherAddress,
      callback.failureFns.map (.pinged false))
  | .findSuccess target top => n.findSuccess Γ ch target top m
  | .findFailure target top => n.findFailure target top

/-- A call of the base, with the two virtual calls that the node overrides. -/
def execBase (Γ : Ctx) (ch : Choice) (n : KademliaNode) (c : BaseCall UInt32 SendFn) : KademliaNode × List Call :=
  match c with
  | .handleMessage m => (n, [.base (.receive m), .dispatch m])
  | .callback _ fn m => n.sendCallback Γ ch fn m
  | c =>
    let r := BaseApplication.exec ch.tag c n.toBaseApplication
    (n.setBase r.1, r.2.map .base)

/-- The effect of a call: the node after the body of the function, and the calls the body makes. -/
def exec (Γ : Ctx) (ch : Choice) (c : Call) (n : KademliaNode) : Option (KademliaNode × List Call) :=
  match c with
  | .base c => some (n.execBase Γ ch c)
  | .tick time => some (n, [.base (.tick time), .maintenanceCheck, .refreshCheck])
  | .maintenanceCheck =>
    -- The remainder by zero is undefined.
    if n.config.maintenancePeriod = 0 then none
    else some (n, if n.epoch % n.config.maintenancePeriod = n.maintenanceOffset then [.runTableMaintenance] else [])
  | .refreshCheck =>
    if n.config.bucketRefreshPeriod = 0 then none
    else some (n, if n.epoch % n.config.bucketRefreshPeriod = n.maintenanceOffset % n.config.bucketRefreshPeriod then
      [.refreshBuckets .empty] else [])
  | .dispatch m => some (n, n.dispatch Γ ch m)
  | .handleFindNodes m fm => some (n, n.handleFindNodes Γ m fm)
  | .handleStore m sm => some (n.handleStore Γ m sm)
  | .observe otherAddress otherKey => n.observe otherAddress otherKey
  | .ping otherAddress callback => some (n.ping Γ otherAddress callback)
  | .pinged _ .drop => some (n, [])
  | .pinged _ (.evict bucketIndex newEntry) => (n.evict bucketIndex newEntry).map (fun n => (n, []))
  | .pinged _ (.user _) => some (n, [.userCode])
  | .lookup findValue target callback => some (n.lookup Γ findValue target callback)
  | .findNodesStep target newNodes => some (n.findNodesStep Γ target newNodes)
  | .findNodesFail target => n.findNodesFail ch target
  | .findNodesFinish target => n.findNodesFinish Γ ch target
  | .findValueFinish target value => n.findValueFinish ch target value
  | .found _ fn result => some (n, found fn result)
  | .eraseFinder target => some ({ n with nodesBeingFound := n.nodesBeingFound.erase target }, [])
  | .store value => some (n, store Γ value)
  | .storeAt targetAddress value => some (n, n.storeAt Γ targetAddress value)
  | .runTableMaintenance => some (n.runTableMaintenance Γ)
  | .refreshBuckets cb =>
    some ({ n with refreshWaiting := n.refreshWaiting ++ [0] }, [.refreshLoop 0 cb n.refreshWaiting.length])
  | .refreshLoop i cb waiting => some (n.refreshLoop i cb waiting)
  | .refreshSingleBucket bucketIndex cb =>
    some (n, [.lookup false (n.refreshTarget bucketIndex (randomizeKey Γ ch)) (.of (.refresh cb) (.refresh cb))])
  | .refreshed fn => some (n.refreshed fn)
  | .refreshDone _ => some (n, [.userCode])
  | .fetched _ _ => some (n, [.userCode])
  | .userCode => none

end KademliaNode

end Dhtsim
