import Dhtsim.Lemmas.Effects

/-!
# Which calls a call makes

`Makes Γ ch n c x`: the body of `c`, run on the node `n`, makes the call `x`. One constructor for each place of the source
where a call is made, with what is known there; `exec_makes` says that there are no others.
-/

namespace Dhtsim

/-- What a call hands to `send`. -/
def Call.handsOver : Call → List (Message UInt32)
  | .base (.send m _ _ _) => [m]
  | _ => []

namespace KademliaNode

/-- The answer to a ping. -/
def pongTo (Γ : Ctx) (n : KademliaNode) (m : Message UInt32) : Message UInt32 :=
  { m with destination := m.originator, originator := n.address, data := Γ.ping.write (PingMessage.pong n.key) }

/-- The answer to a `FIND_NODES` request. -/
def findNodesReplyTo (Γ : Ctx) (n : KademliaNode) (m : Message UInt32) (fm : FindNodesMessage) : Message UInt32 :=
  { m with
    data := Γ.findNodes.write (n.findNodesReply Γ fm), destination := m.originator, originator := m.destination }

/-- The answer to a `STORE` request. -/
def storeReplyTo (Γ : Ctx) (n : KademliaNode) (m : Message UInt32) : Message UInt32 :=
  { m with originator := m.destination, destination := m.originator, data := Γ.store.write ⟨false, n.key, []⟩ }

/-- The ping that `ping` sends. -/
def pingRequest (Γ : Ctx) (n : KademliaNode) (a : UInt32) : Message UInt32 :=
  ⟨MessageType.ping.code, n.address, a, 0, Γ.ping.write (PingMessage.ping n.key)⟩

/-- The message that `store` sends to an address. -/
def storeRequest (Γ : Ctx) (n : KademliaNode) (a : UInt32) (value : List UInt8) : Message UInt32 :=
  ⟨MessageType.store.code, n.address, a, 0, Γ.store.write ⟨true, n.key, value⟩⟩

/-- The structure that a node reads from a `FIND_NODES` message. -/
def readFindNodes (Γ : Ctx) (ch : Choice) (m : Message UInt32) : FindNodesMessage :=
  Γ.findNodes.read m.data (FindNodesMessage.unset ch)

/-- The structure that a node reads from a `STORE` message. -/
def readStore (Γ : Ctx) (ch : Choice) (m : Message UInt32) : StoreMessage := Γ.store.read m.data (StoreMessage.unset ch)

/-- The structure that a node reads from a `PING` message. -/
def readPing (Γ : Ctx) (m : Message UInt32) : PingMessage := Γ.ping.read m.data (PingMessage.ping KademliaKey.zero)

/-- The calls that the body of a call makes, one constructor for each place where one is made. -/
inductive Makes (Γ : Ctx) (ch : Choice) (n : KademliaNode) : Call → Call → Prop where
  -- the base application
  | tickDrain {t : Time} (hd : n.dead = false) : Makes Γ ch n (.base (.tick t)) (.base .drain)
  | tickOverdue {t : Time} (hd : n.dead = false) : Makes Γ ch n (.base (.tick t)) (.base (.overdue none))
  | drainMessage {m : Message UInt32} {rest : List (Message UInt32)} (hq : n.inqueue = m :: rest) :
      Makes Γ ch n (.base .drain) (.base (.handleMessage m))
  | drainNext : Makes Γ ch n (.base .drain) (.base .drain)
  | retry {after : Option Tag} {tag : Tag} {r : SentMessage UInt32 SendFn}
      (hn : n.callbacks.next after = some (tag, r)) (hr : r.needsRetry = true) :
      Makes Γ ch n (.base (.overdue after)) (.base (.attemptRetry tag))
  | giveUp {after : Option Tag} {tag : Tag} {r : SentMessage UInt32 SendFn} {fn : SendFn}
      (hn : n.callbacks.next after = some (tag, r)) (hdue : r.nextSend ≤ n.epoch) (hr : r.needsRetry = false)
      (hfn : fn ∈ r.callback.failureFns) : Makes Γ ch n (.base (.overdue after)) (.base (.callback false fn r.message))
  | giveUpErase {after : Option Tag} {tag : Tag} {r : SentMessage UInt32 SendFn}
      (hn : n.callbacks.next after = some (tag, r)) (hr : r.needsRetry = false) :
      Makes Γ ch n (.base (.overdue after)) (.base (.erase tag))
  | overdueNext {after : Option Tag} {tag : Tag} {r : SentMessage UInt32 SendFn}
      (hn : n.callbacks.next after = some (tag, r)) :
      Makes Γ ch n (.base (.overdue after)) (.base (.overdue (some tag)))
  | sendDead {m : Message UInt32} {cb : CallbackSet SendFn} {r : UInt32} {t : UInt64} {fn : SendFn}
      (hd : n.dead = true) (hfn : fn ∈ cb.failureFns) :
      Makes Γ ch n (.base (.send m cb r t)) (.base (.callback false fn m))
  | resolve {m : Message UInt32} {r : SentMessage UInt32 SendFn} {fn : SendFn}
      (hf : n.callbacks.find? m.tag = some r) (hfn : fn ∈ r.callback.successFns) :
      Makes Γ ch n (.base (.receive m)) (.base (.callback true fn m))
  | resolveErase {m : Message UInt32} {r : SentMessage UInt32 SendFn} (hf : n.callbacks.find? m.tag = some r) :
      Makes Γ ch n (.base (.receive m)) (.base (.erase m.tag))
  -- messages
  | receive {m : Message UInt32} : Makes Γ ch n (.base (.handleMessage m)) (.base (.receive m))
  | dispatch {m : Message UInt32} : Makes Γ ch n (.base (.handleMessage m)) (.dispatch m)
  | observePing {m : Message UInt32} (ht : MessageType.ofCode m.type = some .ping) :
      Makes Γ ch n (.dispatch m) (.observe m.originator (readPing Γ m).sender)
  | pong {m : Message UInt32} (ht : MessageType.ofCode m.type = some .ping) (hp : (readPing Γ m).pingOrPong = true) :
      Makes Γ ch n (.dispatch m) (.base (.send (n.pongTo Γ m) .empty 16 0))
  | observeFindNodes {m : Message UInt32} (ht : MessageType.ofCode m.type = some .findNodes) :
      Makes Γ ch n (.dispatch m) (.observe m.originator (readFindNodes Γ ch m).sender)
  | findNodes {m : Message UInt32} (ht : MessageType.ofCode m.type = some .findNodes) :
      Makes Γ ch n (.dispatch m) (.handleFindNodes m (readFindNodes Γ ch m))
  | observeStore {m : Message UInt32} (ht : MessageType.ofCode m.type = some .store) :
      Makes Γ ch n (.dispatch m) (.observe m.originator (readStore Γ ch m).sender)
  | storeRequested {m : Message UInt32} (ht : MessageType.ofCode m.type = some .store)
      (hr : (readStore Γ ch m).request = true) : Makes Γ ch n (.dispatch m) (.handleStore m (readStore Γ ch m))
  | findNodesReply {m : Message UInt32} {fm : FindNodesMessage} (hr : fm.request = true) :
      Makes Γ ch n (.handleFindNodes m fm) (.base (.send (n.findNodesReplyTo Γ m fm) .empty 16 0))
  | observeNearest {m : Message UInt32} {fm : FindNodesMessage} {e : BucketEntry} (hr : fm.request = false)
      (he : e ∈ fm.nearest) : Makes Γ ch n (.handleFindNodes m fm) (.observe e.address e.key)
  | storeReply {m : Message UInt32} {sm : StoreMessage} :
      Makes Γ ch n (.handleStore m sm) (.base (.send (n.storeReplyTo Γ m) .empty 16 0))
  -- buckets and pings
  | pingOldest {a : UInt32} {k : KademliaKey} {i : Fin keyLenBits} {lrs : BucketEntry} {rest : List BucketEntry}
      (hi : longestMatchingPrefix n.key k = i) (hne : ∀ e ∈ n.buckets i, e.key ≠ k)
      (hk : n.config.k ≤ (n.buckets i).length) (hb : n.buckets i = lrs :: rest) :
      Makes Γ ch n (.observe a k) (.ping lrs.address (.of .drop (.evict i ⟨k, a, n.epoch⟩)))
  | pingSend {a : UInt32} {cb : CallbackSet PingFn} (hf : n.pingsInProgress.find? a = none) :
      Makes Γ ch n (.ping a cb)
        (.base (.send (n.pingRequest Γ a) (.of (.pingSuccess a cb) (.pingFailure a cb)) 1 2))
  | pingSucceeded {ok : Bool} {a : UInt32} {cb : CallbackSet PingFn} {m : Message UInt32} {fn : PingFn}
      (hfn : fn ∈ cb.successFns) : Makes Γ ch n (.base (.callback ok (.pingSuccess a cb) m)) (.pinged true fn)
  | pingFailed {ok : Bool} {a : UInt32} {cb : CallbackSet PingFn} {m : Message UInt32} {fn : PingFn}
      (hfn : fn ∈ cb.failureFns) : Makes Γ ch n (.base (.callback ok (.pingFailure a cb) m)) (.pinged false fn)
  | pingedUser {ok : Bool} {fn : UserFn} : Makes Γ ch n (.pinged ok (.user fn)) .userCode
  -- lookups
  | lookupStart {fv : Bool} {t : KademliaKey} {cb : CallbackSet FindNodesFn} (hf : n.nodesBeingFound.find? t = none) :
      Makes Γ ch n (.lookup fv t cb) (.findNodesStep t (n.getNearest Γ n.config.k t n.key))
  | stepSend {t : KademliaKey} {l uncontacted : List BucketEntry} {nf : NodeFinder} {top : BucketEntry}
      (hf : n.nodesBeingFound.find? t = some nf)
      (hs : sortByDistanceTo Γ t (nf.learn l).uncontacted = top :: uncontacted) :
      Makes Γ ch n (.findNodesStep t l) (.base (.send (n.findNodesRequest Γ t (nf.learn l).findValue top)
        (.of (.findSuccess t top) (.findFailure t top)) 1 2))
  | stepFail {t : KademliaKey} {l : List BucketEntry} {nf : NodeFinder} (hf : n.nodesBeingFound.find? t = some nf)
      (hfv : (nf.learn l).findValue = true) : Makes Γ ch n (.findNodesStep t l) (.findNodesFail t)
  | stepFinish {t : KademliaKey} {l : List BucketEntry} {nf : NodeFinder} (hf : n.nodesBeingFound.find? t = some nf)
      (hfv : (nf.learn l).findValue = false) : Makes Γ ch n (.findNodesStep t l) (.findNodesFinish t)
  | valueFound {ok : Bool} {t : KademliaKey} {top : BucketEntry} {m : Message UInt32} {nf : NodeFinder}
      (hf : n.nodesBeingFound.find? t = some nf)
      (hv : ((readFindNodes Γ ch m).findValue && (readFindNodes Γ ch m).valueFound) = true) :
      Makes Γ ch n (.base (.callback ok (.findSuccess t top) m)) (.findValueFinish t (readFindNodes Γ ch m).value)
  | replied {ok : Bool} {t : KademliaKey} {top : BucketEntry} {m : Message UInt32} {nf : NodeFinder}
      (hf : n.nodesBeingFound.find? t = some nf)
      (hv : ((readFindNodes Γ ch m).findValue && (readFindNodes Γ ch m).valueFound) = false) :
      Makes Γ ch n (.base (.callback ok (.findSuccess t top) m)) (.findNodesStep t (readFindNodes Γ ch m).nearest)
  | timedOut {ok : Bool} {t : KademliaKey} {top : BucketEntry} {m : Message UInt32} {nf : NodeFinder}
      (hf : n.nodesBeingFound.find? t = some nf) :
      Makes Γ ch n (.base (.callback ok (.findFailure t top) m)) (.findNodesStep t [])
  | failFound {t : KademliaKey} {nf : NodeFinder} {fn : FindNodesFn} (hf : n.nodesBeingFound.find? t = some nf)
      (hfn : fn ∈ nf.findNodesCallback.failureFns) : Makes Γ ch n (.findNodesFail t) (.found false fn (failResult ch))
  | failErase {t : KademliaKey} : Makes Γ ch n (.findNodesFail t) (.eraseFinder t)
  | finishFound {t : KademliaKey} {nf : NodeFinder} {fn : FindNodesFn} (hf : n.nodesBeingFound.find? t = some nf)
      (hfn : fn ∈ nf.findNodesCallback.successFns) :
      Makes Γ ch n (.findNodesFinish t) (.found true fn (finishResult (sortByDistanceTo Γ t nf.contacted) ch))
  | finishErase {t : KademliaKey} : Makes Γ ch n (.findNodesFinish t) (.eraseFinder t)
  | valueFinishFound {t : KademliaKey} {v : List UInt8} {nf : NodeFinder} {fn : FindNodesFn}
      (hf : n.nodesBeingFound.find? t = some nf) (hfn : fn ∈ nf.findNodesCallback.successFns) :
      Makes Γ ch n (.findValueFinish t v) (.found true fn (valueResult v ch))
  | valueFinishErase {t : KademliaKey} {v : List UInt8} : Makes Γ ch n (.findValueFinish t v) (.eraseFinder t)
  | foundStore {ok : Bool} {v : List UInt8} {fm : FindNodesMessage} {e : BucketEntry} (he : e ∈ fm.nearest) :
      Makes Γ ch n (.found ok (.storeAt v) fm) (.storeAt e.address v)
  | foundRefresh {ok : Bool} {cb : CallbackSet RefreshFn} {fm : FindNodesMessage} {fn : RefreshFn}
      (hfn : fn ∈ cb.successFns) : Makes Γ ch n (.found ok (.refresh cb) fm) (.refreshed fn)
  | foundFetch {ok : Bool} {cb : CallbackSet UserFn} {fm : FindNodesMessage} {fn : UserFn} (hv : fm.valueFound = true)
      (hfn : fn ∈ cb.successFns) : Makes Γ ch n (.found ok (.fetchSuccess cb) fm) (.fetched fn (some fm.value))
  | foundFetchFail {ok : Bool} {cb : CallbackSet UserFn} {fm : FindNodesMessage} {fn : UserFn}
      (hfn : fn ∈ cb.failureFns) : Makes Γ ch n (.found ok (.fetchFailure cb) fm) (.fetched fn none)
  | foundUser {ok : Bool} {fn : UserFn} {fm : FindNodesMessage} : Makes Γ ch n (.found ok (.user fn) fm) .userCode
  | fetchedUser {fn : UserFn} {v : Option (List UInt8)} : Makes Γ ch n (.fetched fn v) .userCode
  -- values
  | storeLookup {v : List UInt8} :
      Makes Γ ch n (.store v) (.lookup false (Γ.sha1 v) (.of (.storeAt v) .drop))
  | storeSend {a : UInt32} {v : List UInt8} :
      Makes Γ ch n (.storeAt a v) (.base (.send (n.storeRequest Γ a v) .empty 16 0))
  | republish {k : KademliaKey} {entry : TableEntry} {e : BucketEntry} (hk : n.table.find? k = some entry)
      (hx : n.expired entry = false) (ha : entry.added ≤ entry.lastTouch)
      (he : e ∈ n.getNearest Γ n.config.k k n.key) : Makes Γ ch n .runTableMaintenance (.storeAt e.address entry.value)
  -- the rest of a tick
  | tickBase {t : Time} : Makes Γ ch n (.tick t) (.base (.tick t))
  | tickMaintenance {t : Time} : Makes Γ ch n (.tick t) .maintenanceCheck
  | tickRefresh {t : Time} : Makes Γ ch n (.tick t) .refreshCheck
  | maintenance : Makes Γ ch n .maintenanceCheck .runTableMaintenance
  | refresh : Makes Γ ch n .refreshCheck (.refreshBuckets .empty)
  | refreshStart {cb : CallbackSet UserFn} :
      Makes Γ ch n (.refreshBuckets cb) (.refreshLoop 0 cb n.refreshWaiting.length)
  | refreshStale {i : Nat} {cb : CallbackSet UserFn} {w : Nat} (hi : i < keyLenBits) :
      Makes Γ ch n (.refreshLoop i cb w) (.refreshSingleBucket i (.of ⟨cb, w⟩ ⟨cb, w⟩))
  | refreshNext {i : Nat} {cb : CallbackSet UserFn} {w : Nat} :
      Makes Γ ch n (.refreshLoop i cb w) (.refreshLoop (i + 1) cb w)
  | refreshLookup {i : Nat} {cb : CallbackSet RefreshFn} :
      Makes Γ ch n (.refreshSingleBucket i cb)
        (.lookup false (n.refreshTarget i (randomizeKey Γ ch)) (.of (.refresh cb) (.refresh cb)))
  | refreshedDone {fn : RefreshFn} {f : UserFn} (hf : f ∈ fn.cb.successFns) : Makes Γ ch n (.refreshed fn) (.refreshDone f)
  | refreshDoneUser {f : UserFn} : Makes Γ ch n (.refreshDone f) .userCode

variable {Γ : Ctx} {ch : Choice} {c : Call} {n : KademliaNode} {p : KademliaNode × List Call}

theorem makes_of_mem_pair {x y z : Call} (hy : Makes Γ ch n c y) (hz : Makes Γ ch n c z) (hx : x ∈ [y, z]) :
    Makes Γ ch n c x := by
  rcases List.mem_pair.1 hx with rfl | rfl
  · exact hy
  · exact hz

theorem makes_of_mem_singleton {x y : Call} (hy : Makes Γ ch n c y) (hx : x ∈ [y]) : Makes Γ ch n c x :=
  List.mem_singleton.1 hx ▸ hy

/-- A record that is due is sent again, or its functions run and it is erased; then the next one is looked at. -/
theorem overdue_makes (after : Option Tag) :
    ∀ x ∈ (n.execBase Γ ch (.overdue after)).2, Makes Γ ch n (.base (.overdue after)) x := by
  intro x hx
  simp only [execBase, BaseApplication.exec] at hx
  split at hx
  · simp at hx
  · rename_i tag r hn
    split at hx
    · rename_i hdue
      split at hx
      · rename_i hr
        exact makes_of_mem_pair (.retry hn hr) (.overdueNext hn) hx
      · rename_i hr
        have hr : r.needsRetry = false := by simpa using hr
        simp only [List.map_append, List.map_map, List.map_cons, List.map_nil, List.mem_append, List.mem_map] at hx
        rcases hx with ⟨fn, hfn, rfl⟩ | hx
        · exact .giveUp hn hdue hr hfn
        · exact makes_of_mem_pair (.giveUpErase hn hr) (.overdueNext hn) hx
    · exact makes_of_mem_singleton (.overdueNext hn) hx

/-- What a function of a request makes of the answer, or of its absence. -/
theorem sendCallback_makes (ok : Bool) (fn : SendFn) (m : Message UInt32) :
    ∀ x ∈ (n.sendCallback Γ ch fn m).2, Makes Γ ch n (.base (.callback ok fn m)) x := by
  intro x hx
  cases fn with
  | pingSuccess a cb =>
    obtain ⟨g, hg, rfl⟩ := List.mem_map.1 hx
    exact .pingSucceeded hg
  | pingFailure a cb =>
    obtain ⟨g, hg, rfl⟩ := List.mem_map.1 hx
    exact .pingFailed hg
  | findSuccess t top =>
    simp only [sendCallback, findSuccess] at hx
    split at hx
    · simp at hx
    · rename_i nf hf
      rw [List.mem_singleton] at hx
      split at hx
      · rename_i hv
        exact hx ▸ .valueFound hf hv
      · rename_i hv
        exact hx ▸ .replied hf (by simpa [readFindNodes] using hv)
  | findFailure t top =>
    simp only [sendCallback, findFailure] at hx
    split at hx
    · simp at hx
    · rename_i nf hf
      exact makes_of_mem_singleton (.timedOut hf) hx

/-- The calls of the base application: of the loops of `tick`, of `send`, and of a reply that has a record. -/
theorem execBase_makes (c : BaseCall UInt32 SendFn) : ∀ x ∈ (n.execBase Γ ch c).2, Makes Γ ch n (.base c) x := by
  intro x hx
  cases c with
  | tick t =>
    simp only [execBase, BaseApplication.exec] at hx
    split at hx
    · simp at hx
    · rename_i hd
      have hd : n.dead = false := by simpa using hd
      exact makes_of_mem_pair (.tickDrain hd) (.tickOverdue hd) hx
  | drain =>
    simp only [execBase, BaseApplication.exec] at hx
    split at hx
    · simp at hx
    · rename_i m rest hq
      exact makes_of_mem_pair (.drainMessage hq) .drainNext hx
  | overdue after => exact overdue_makes after x hx
  | send m cb r t =>
    simp only [execBase, BaseApplication.exec] at hx
    cases hd : n.dead with
    | true =>
      rw [BaseApplication.send_of_dead hd] at hx
      simp only [List.map_map, List.mem_map] at hx
      obtain ⟨fn, hfn, rfl⟩ := hx
      exact .sendDead hd hfn
    | false =>
      rw [BaseApplication.send_of_live hd] at hx
      simp at hx
  | receive m =>
    simp only [execBase, BaseApplication.exec] at hx
    split at hx
    · simp at hx
    · rename_i r hf
      simp only [List.map_append, List.map_map, List.map_cons, List.map_nil, List.mem_append, List.mem_map] at hx
      rcases hx with ⟨fn, hfn, rfl⟩ | hx
      · exact .resolve hf hfn
      · exact makes_of_mem_singleton (.resolveErase hf) hx
  | handleMessage m => exact makes_of_mem_pair .receive .dispatch hx
  | callback ok fn m => exact sendCallback_makes ok fn m x hx
  | _ => simp [execBase, BaseApplication.exec] at hx

/-- The `switch` of `handleMessage` observes the sender, and replies or hands the message on. -/
theorem dispatch_makes (m : Message UInt32) : ∀ x ∈ n.dispatch Γ ch m, Makes Γ ch n (.dispatch m) x := by
  intro x hx
  simp only [KademliaNode.dispatch] at hx
  split at hx
  · rename_i ht
    rcases List.mem_cons.1 hx with rfl | hx
    · exact .observePing ht
    · split at hx
      · rename_i hp
        exact makes_of_mem_singleton (.pong ht hp) hx
      · simp at hx
  · rename_i ht
    split at hx
    · simp at hx
    · exact makes_of_mem_pair (.observeFindNodes ht) (.findNodes ht) hx
  · rename_i ht
    rcases List.mem_cons.1 hx with rfl | hx
    · exact .observeStore ht
    · split at hx
      · rename_i hr
        exact makes_of_mem_singleton (.storeRequested ht hr) hx
      · simp at hx
  · simp at hx
  · simp at hx

/-- A step of a lookup asks the closest contact that was not asked yet, or ends the lookup. -/
theorem findNodesStep_makes (t : KademliaKey) (l : List BucketEntry) :
    ∀ x ∈ (n.findNodesStep Γ t l).2, Makes Γ ch n (.findNodesStep t l) x := by
  intro x hx
  simp only [KademliaNode.findNodesStep] at hx
  split at hx
  · simp at hx
  · rename_i nf hf
    split at hx
    · dsimp only at hx
      split at hx
      · split at hx
        · rename_i hfv
          exact makes_of_mem_singleton (.stepFail hf hfv) hx
        · rename_i hfv
          exact makes_of_mem_singleton (.stepFinish hf (by simpa using hfv)) hx
      · simp at hx
    · split at hx
      · simp at hx
      · rename_i top uncontacted hs
        exact makes_of_mem_singleton (.stepSend hf hs) hx

/-- What a function of a lookup makes of the result. -/
theorem found_makes (ok : Bool) (fn : FindNodesFn) (fm : FindNodesMessage) :
    ∀ x ∈ KademliaNode.found fn fm, Makes Γ ch n (.found ok fn fm) x := by
  intro x hx
  cases fn with
  | storeAt v =>
    obtain ⟨e, he, rfl⟩ := List.mem_map.1 hx
    exact .foundStore he
  | drop => simp [KademliaNode.found] at hx
  | refresh cb =>
    obtain ⟨g, hg, rfl⟩ := List.mem_map.1 hx
    exact .foundRefresh hg
  | fetchSuccess cb =>
    simp only [KademliaNode.found] at hx
    split at hx
    · rename_i hv
      obtain ⟨g, hg, rfl⟩ := List.mem_map.1 hx
      exact .foundFetch hv hg
    · simp at hx
  | fetchFailure cb =>
    obtain ⟨g, hg, rfl⟩ := List.mem_map.1 hx
    exact .foundFetchFail hg
  | user fn => exact makes_of_mem_singleton .foundUser hx

/-- Maintenance looks for the nodes that an entry is stored at next. -/
theorem runTableMaintenance_makes : ∀ x ∈ (n.runTableMaintenance Γ).2, Makes Γ ch n .runTableMaintenance x := by
  intro x hx
  simp only [KademliaNode.runTableMaintenance, List.mem_flatMap] at hx
  obtain ⟨⟨k, entry⟩, hk, hx⟩ := hx
  obtain ⟨hk, hexp⟩ := SortedMap.mem_entries_filter.1 hk
  split at hx
  · rename_i ha
    obtain ⟨e, he, rfl⟩ := List.mem_map.1 hx
    exact .republish (SortedMap.find?_eq_some_iff.2 hk) (by simpa using hexp) ha he
  · simp at hx

/-- The loop over the buckets refreshes one bucket after the other. -/
theorem refreshLoop_makes (i : Nat) (cb : CallbackSet UserFn) (w : Nat) :
    ∀ x ∈ (n.refreshLoop i cb w).2, Makes Γ ch n (.refreshLoop i cb w) x := by
  intro x hx
  simp only [KademliaNode.refreshLoop] at hx
  split at hx
  · rename_i hi
    split at hx
    · exact makes_of_mem_pair (.refreshStale hi) .refreshNext hx
    · exact makes_of_mem_singleton .refreshNext hx
  · simp at hx

/-- Every call that a body makes is made in one of the places that `Makes` lists. -/
theorem exec_makes (h : exec Γ ch c n = some p) : ∀ x ∈ p.2, Makes Γ ch n c x := by
  intro x hx
  cases c with
  | base c => cases h; exact execBase_makes c x hx
  | tick t =>
    cases h
    rcases List.mem_cons.1 hx with rfl | hx
    · exact .tickBase
    · exact makes_of_mem_pair .tickMaintenance .tickRefresh hx
  | maintenanceCheck =>
    simp only [exec, Option.ite_none_left_eq_some] at h
    cases h.2
    dsimp only at hx
    split at hx
    · exact makes_of_mem_singleton .maintenance hx
    · simp at hx
  | refreshCheck =>
    simp only [exec, Option.ite_none_left_eq_some] at h
    cases h.2
    dsimp only at hx
    split at hx
    · exact makes_of_mem_singleton .refresh hx
    · simp at hx
  | dispatch m => cases h; exact dispatch_makes m x hx
  | handleFindNodes m fm =>
    cases h
    simp only [KademliaNode.handleFindNodes] at hx
    split at hx
    · rename_i hr
      exact makes_of_mem_singleton (.findNodesReply hr) hx
    · rename_i hr
      obtain ⟨e, he, rfl⟩ := List.mem_map.1 hx
      exact .observeNearest (by simpa using hr) he
  | handleStore m sm => cases h; exact makes_of_mem_singleton .storeReply hx
  | observe a k =>
    rcases observe_cases h with ⟨-, rfl⟩ | ⟨i, hi, ⟨_, _, _, -, -, -, rfl⟩ | ⟨-, -, rfl⟩ | ⟨hne, hk, lrs, rest, hb, rfl⟩⟩
    · simp at hx
    · simp at hx
    · simp at hx
    · exact makes_of_mem_singleton (.pingOldest hi hne hk hb) hx
  | ping a cb =>
    cases h
    simp only [KademliaNode.ping] at hx
    split at hx
    · simp at hx
    · rename_i hf
      exact makes_of_mem_singleton (.pingSend hf) hx
  | pinged ok fn =>
    cases fn with
    | drop => cases h; simp at hx
    | evict i e =>
      obtain ⟨n₁, -, rfl⟩ := Option.map_eq_some_iff.1 h
      simp at hx
    | user fn => cases h; exact makes_of_mem_singleton .pingedUser hx
  | lookup fv t cb =>
    cases h
    simp only [KademliaNode.lookup] at hx
    split at hx
    · simp at hx
    · rename_i hf
      exact makes_of_mem_singleton (.lookupStart hf) hx
  | findNodesStep t l => cases h; exact findNodesStep_makes t l x hx
  | findNodesFail t =>
    obtain ⟨-, nf, hf, h2⟩ := findNodesFail_eq h
    rw [h2, complete, List.mem_append] at hx
    rcases hx with hx | hx
    · obtain ⟨g, hg, rfl⟩ := List.mem_map.1 hx
      exact .failFound hf hg
    · exact makes_of_mem_singleton .failErase hx
  | findNodesFinish t =>
    obtain ⟨nf, hf, -, h2⟩ := findNodesFinish_eq h
    rw [h2, complete, List.mem_append] at hx
    rcases hx with hx | hx
    · obtain ⟨g, hg, rfl⟩ := List.mem_map.1 hx
      exact .finishFound hf hg
    · exact makes_of_mem_singleton .finishErase hx
  | findValueFinish t v =>
    obtain ⟨-, nf, hf, h2⟩ := findValueFinish_eq h
    rw [h2, complete, List.mem_append] at hx
    rcases hx with hx | hx
    · obtain ⟨g, hg, rfl⟩ := List.mem_map.1 hx
      exact .valueFinishFound hf hg
    · exact makes_of_mem_singleton .valueFinishErase hx
  | found ok fn fm => cases h; exact found_makes ok fn fm x hx
  | eraseFinder t => cases h; simp at hx
  | store v => cases h; exact makes_of_mem_singleton .storeLookup hx
  | storeAt a v => cases h; exact makes_of_mem_singleton .storeSend hx
  | runTableMaintenance => cases h; exact runTableMaintenance_makes x hx
  | refreshBuckets cb => cases h; exact makes_of_mem_singleton .refreshStart hx
  | refreshLoop i cb w => cases h; exact refreshLoop_makes i cb w x hx
  | refreshSingleBucket i cb => cases h; exact makes_of_mem_singleton .refreshLookup hx
  | refreshed fn =>
    cases h
    simp only [KademliaNode.refreshed] at hx
    split at hx
    · obtain ⟨f, hf, rfl⟩ := List.mem_map.1 hx
      exact .refreshedDone hf
    · simp at hx
  | refreshDone f => cases h; exact makes_of_mem_singleton .refreshDoneUser hx
  | fetched f v => cases h; exact makes_of_mem_singleton .fetchedUser hx
  | userCode => cases h

end KademliaNode

end Dhtsim
