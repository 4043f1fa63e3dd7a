import Dhtsim.Lib.Recency
import Dhtsim.Lemmas.Requests
import Dhtsim.Model.Outside
import Dhtsim.Theorems.Eviction

/-!
# Duplicate messages

A node that handles a message twice in a row ends with the table and the lookups it had after the first time, and runs no
callback the second time. Its buckets are also the same when none of them has more entries of a key than the message shows the
key. Otherwise the second time moves another old entry of the key.
-/

namespace Dhtsim

open CallMachine KademliaNode

/-- The contacts that a message shows the node that handles it. -/
def contactsShown (Γ : Ctx) (m : Message UInt32) : List (UInt32 × KademliaKey) :=
  match MessageType.ofCode m.type with
  | some .ping => [(m.originator, (readPing Γ m).sender)]
  | some .findNodes =>
    if m.data.length < 1 + keyLen + 4 then []
    else
      let fm := readFindNodes Γ ⟨0, 0, false, 0⟩ m
      (m.originator, fm.sender) :: if fm.request then [] else fm.nearest.map (fun e => (e.address, e.key))
  | some .store => [(m.originator, (readStore Γ ⟨0, 0, false, 0⟩ m).sender)]
  | _ => []

/-- The values that a message asks the node to store. -/
def valuesIn (Γ : Ctx) (m : Message UInt32) : List (List UInt8) :=
  match MessageType.ofCode m.type with
  | some .store =>
    let sm := readStore Γ ⟨0, 0, false, 0⟩ m
    if sm.request then [sm.value] else []
  | _ => []

/-- The data of the message are those of a structure of its type. -/
def Decodable (Γ : Ctx) (m : Message UInt32) : Prop :=
  match MessageType.ofCode m.type with
  | some .ping => ∃ pm, m.data = Γ.ping.write pm
  | some .findNodes => ∃ fm, m.data = Γ.findNodes.write fm
  | some .store => ∃ sm, m.data = Γ.store.write sm
  | _ => True

/-- No bucket has more entries of a key than the list shows the key. -/
def FewCopies (n : KademliaNode) (contacts : List (UInt32 × KademliaKey)) : Prop :=
  ∀ i, ∀ c ∈ contacts,
    (n.buckets i).countP (fun e => decide (e.key = c.2)) ≤ contacts.countP (fun d => decide (d.2 = c.2))

/-- Nothing comes in, and a tag that is drawn is not that of the message. -/
def undisturbed (msg : Message UInt32) (m : NodeConfig) (l : NodeLabel) : Bool :=
  match l, m.stack with
  | .run ch, .base (.send q _ _ _) :: _ => q.tag ≠ 0 || ch.tag ≠ msg.tag
  | .enter _, _ => false
  | _, _ => true

/-- The node handles a message, from the call to its end. -/
def Handles (Γ : Ctx) (msg : Message UInt32) (m m' : NodeConfig) : Prop :=
  Run (nodeProgram Γ) (fun m l => undisturbed msg m l = true) ⟨m.state, [.base (.handleMessage msg)], m.trace⟩ m' ∧
    m'.stack = []

/-- The calls that run a callback. -/
def Call.isCallback : Call → Bool
  | .base (.callback _ _ _) => true
  | .pinged _ _ => true
  | .found _ _ _ => true
  | .refreshed _ => true
  | .refreshDone _ => true
  | .fetched _ _ => true
  | _ => false

namespace DuplicatesAux

/-- A function of a request that does not evict when the request succeeds. -/
def Spares : SendFn → Prop
  | .pingSuccess _ cb => ∀ i e, PingFn.evict i e ∉ cb.successFns
  | _ => True

/-- The functions that a call carries do not evict when a request succeeds. -/
def CallSpares : Call → Prop
  | .base (.send _ cb _ _) => ∀ fn ∈ cb.all, Spares fn
  | .base (.callback _ fn _) => Spares fn
  | .ping _ cb => ∀ i e, PingFn.evict i e ∉ cb.successFns
  | .pinged ok fn => ok = true → ∀ i e, fn ≠ .evict i e
  | _ => True

def NodeSpares (n : KademliaNode) : Prop := ∀ tag r, (tag, r) ∈ n.callbacks.entries → ∀ fn ∈ r.callback.all, Spares fn

variable {Γ : Ctx} {ch : Choice} {n : KademliaNode} {c y : Call} {p : KademliaNode × List Call} {msg : Message UInt32}

theorem exec_nodeSpares (h : exec Γ ch c n = some p) (hn : NodeSpares n) (hc : CallSpares c) : NodeSpares p.1 := by
  intro tag r hr fn hfn
  rcases exec_record h hr with ⟨r', hr', -, heq⟩ | ⟨m, mr, t, rfl, -⟩
  · exact hn tag r' hr' fn (heq ▸ hfn)
  · exact hc fn hfn

theorem makes_callSpares (h : Makes Γ ch n c y) (hn : NodeSpares n) (hc : CallSpares c) : CallSpares y := by
  cases h with
  | giveUp hnext hdue hr hfn => exact hn _ _ (SortedMap.mem_of_next hnext) _ (CallbackSet.mem_all.2 (Or.inr hfn))
  | resolve hf hfn => exact hn _ _ (SortedMap.find?_eq_some_iff.1 hf) _ (CallbackSet.mem_all.2 (Or.inl hfn))
  | sendDead hd hfn => exact hc _ (CallbackSet.mem_all.2 (Or.inr hfn))
  | pingOldest =>
    intro i e he
    cases List.mem_singleton.1 he
  | pingSend =>
    intro fn hfn
    rcases List.mem_pair.1 hfn with rfl | rfl
    · exact hc
    · trivial
  | pingSucceeded hfn =>
    rintro - i e rfl
    exact hc i e hfn
  | pingFailed => exact fun h => by cases h
  | stepSend =>
    intro fn hfn
    rcases List.mem_pair.1 hfn with rfl | rfl <;> trivial
  | pong | findNodesReply | storeReply | storeSend => exact fun fn hfn => absurd hfn List.not_mem_nil
  | pingedUser => trivial
  | _ => trivial

theorem callSpares_of_isEvent (hc : c.isEvent = true) : CallSpares c := by
  cases c with
  | base b =>
    cases b with
    | send m cb mr t =>
      intro fn hfn
      rw [CallbackSet.all_of_isEmpty hc] at hfn
      cases hfn
    | callback => cases hc
    | _ => trivial
  | ping a cb =>
    intro i e he
    have hall : cb.successFns.all PingFn.fromOutside = true ∧ cb.failureFns.all PingFn.fromOutside = true :=
      Bool.and_eq_true_iff.1 hc
    have hout := List.all_eq_true.1 hall.1 _ he
    cases hout
  | pinged => cases hc
  | _ => trivial

/-- In every reachable node no request evicts when it succeeds. -/
theorem nodeSpares_of_run {config : Config} {key : KademliaKey} {offset : Time} {m : NodeConfig}
    (h : Run (nodeProgram Γ) anyStep (startNode config key offset) m) : NodeSpares m.state := by
  refine (h.invariant_stack (S := NodeSpares) (C := fun _ c => CallSpares c)
    ⟨fun _ _ h => absurd h List.not_mem_nil, fun c hc => absurd hc List.not_mem_nil⟩ ?_ ?_).1
  · rintro ch c rest n tr n' cs hn hc hrest - he
    exact ⟨exec_nodeSpares he hn hc, fun x hx => makes_callSpares (exec_makes he x hx) hn hc, hrest⟩
  · intro c n stack tr _ _ hc
    exact callSpares_of_isEvent (isEvent_of_enters hc)

/-! ## The calls of a handling -/

/-- The calls that handling a message makes. -/
def PartOf (msg : Message UInt32) : Call → Prop
  | .base (.handleMessage m) => m = msg
  | .base (.receive m) => m = msg
  | .base (.callback ok _ _) => ok = true
  | .base (.erase tag) => tag = msg.tag
  | .base (.send _ _ _ _) => True
  | .dispatch m => m = msg
  | .pinged ok _ => ok = true
  | .handleFindNodes _ _ => True
  | .handleStore _ _ => True
  | .observe _ _ => True
  | .ping _ _ => True
  | .findNodesStep _ _ => True
  | .findNodesFail _ => True
  | .findNodesFinish _ => True
  | .findValueFinish _ _ => True
  | .found _ _ _ => True
  | .eraseFinder _ => True
  | .storeAt _ _ => True
  | .refreshed _ => True
  | .refreshDone _ => True
  | .fetched _ _ => True
  | .userCode => True
  | _ => False

structure InHandling (Γ : Ctx) (key : KademliaKey) (msg : Message UInt32) (c : Call) : Prop where
  part : PartOf msg c
  requests : c.FromRequests Γ key
  spares : CallSpares c

/-- A node that handles a message, and how it was before. -/
structure Handling (Γ : Ctx) (n₀ n : KademliaNode) : Prop where
  key : n.key = n₀.key
  config : n.config = n₀.config
  epoch : n.epoch = n₀.epoch
  live : n.dead = false
  requests : n.RecordsRequests Γ
  spares : NodeSpares n

variable {n₀ : KademliaNode} {key : KademliaKey}

theorem partOf_of_makes (h : Makes Γ ch n c y) (hc : InHandling Γ key msg c) (hlive : n.dead = false) : PartOf msg y := by
  obtain ⟨hpart, hreq, -⟩ := hc
  cases h with
  | sendDead hd =>
    rw [hlive] at hd
    cases hd
  | pingFailed =>
    obtain rfl : _ = true := hpart
    rcases success_cases hreq with ⟨a, cb, heq⟩ | ⟨t, top, heq⟩ <;> cases heq
  | resolveErase => exact congrArg Message.tag hpart
  | receive | dispatch => exact hpart
  | tickDrain | tickOverdue | drainMessage | drainNext | retry | giveUp | giveUpErase | overdueNext => exact absurd hpart not_false
  | storeLookup | republish | tickBase | tickMaintenance | tickRefresh | maintenance | refresh | refreshStart | refreshStale |
    refreshNext | refreshLookup | lookupStart => exact absurd hpart not_false
  | resolve | pingSucceeded => rfl
  | _ => trivial

theorem handling_exec (hn : Handling Γ n₀ n) (hc : InHandling Γ n₀.key msg c) (h : exec Γ ch c n = some p) :
    Handling Γ n₀ p.1 ∧ ∀ y ∈ p.2, InHandling Γ n₀.key msg y := by
  have hid : p.1.identity = n.identity := exec_identity h
  have hreq : c.FromRequests Γ n.key := hn.key ▸ hc.requests
  refine ⟨⟨?_, ?_, ?_, ?_, exec_recordsRequests h hn.requests hreq, exec_nodeSpares h hn.spares hc.spares⟩, fun y hy => ?_⟩
  · exact (congrArg (·.1) hid).trans hn.key
  · exact (congrArg (·.2.1) hid).trans hn.config
  · rcases exec_epoch h with ⟨t, rfl, -⟩ | he
    · exact absurd hc.part not_false
    · exact he.trans hn.epoch
  · refine (exec_dead h ?_).trans hn.live
    rintro rfl
    exact hc.part
  · have hmakes := exec_makes h y hy
    exact ⟨partOf_of_makes hmakes hc hn.live, hn.key ▸ makes_fromRequests hmakes hn.requests hreq,
      makes_callSpares hmakes hn.spares hc.spares⟩

/-! ## What a handling does to the buckets and the table -/

/-- The contacts that a call shows the node. -/
def shows (Γ : Ctx) : Call → List (UInt32 × KademliaKey)
  | .base (.handleMessage m) => contactsShown Γ m
  | .dispatch m => contactsShown Γ m
  | .handleFindNodes _ fm => if fm.request then [] else fm.nearest.map (fun e => (e.address, e.key))
  | .observe a k => [(a, k)]
  | _ => []

/-- The values that a call stores. -/
def stores (Γ : Ctx) : Call → List (List UInt8)
  | .base (.handleMessage m) => valuesIn Γ m
  | .dispatch m => valuesIn Γ m
  | .handleStore _ sm => [sm.value]
  | _ => []

/-- The entries that contacts make in a bucket. -/
def sightings (n : KademliaNode) (i : Fin keyLenBits) (contacts : List (UInt32 × KademliaKey)) : List BucketEntry :=
  (contacts.filter (fun c => decide (longestMatchingPrefix n.key c.2 = i))).map (fun c => ⟨c.2, c.1, n.epoch⟩)

/-- The table after a value was stored in an epoch. -/
def storeIn (Γ : Ctx) (epoch : Time) (table : SortedMap KademliaKey TableEntry) (value : List UInt8) :
    SortedMap KademliaKey TableEntry :=
  table.insert (Γ.sha1 value)
    (((table.find? (Γ.sha1 value)).map (fun e => { e with lastTouch := epoch })).getD ⟨value, epoch, epoch⟩)

theorem table_storeValue (n : KademliaNode) (value : List UInt8) :
    (n.storeValue (Γ.sha1 value) value).table = storeIn Γ n.epoch n.table value := by
  unfold KademliaNode.storeValue storeIn
  cases n.table.find? (Γ.sha1 value) <;> rfl

/-- Storing a value twice in an epoch is storing it once. -/
theorem storeIn_storeIn (epoch : Time) (table : SortedMap KademliaKey TableEntry) (value : List UInt8) :
    storeIn Γ epoch (storeIn Γ epoch table value) value = storeIn Γ epoch table value := by
  obtain ⟨e, he, htouch⟩ : ∃ e : TableEntry, storeIn Γ epoch table value = table.insert (Γ.sha1 value) e ∧
      e.lastTouch = epoch := by
    refine ⟨_, rfl, ?_⟩
    cases table.find? (Γ.sha1 value) <;> rfl
  have hsame : { e with lastTouch := epoch } = e := by rw [← htouch]
  have hfind : (storeIn Γ epoch table value).find? (Γ.sha1 value) = some e := by
    rw [he, SortedMap.find?_insert_self]
  have htwice : storeIn Γ epoch (storeIn Γ epoch table value) value =
      (storeIn Γ epoch table value).insert (Γ.sha1 value) e := by
    rw [storeIn, hfind, Option.map_some, Option.getD_some, hsame]
  rw [htwice, SortedMap.insert_eq_self hfind]

theorem sightings_flatMap (l : List Call) (i : Fin keyLenBits) :
    l.flatMap (fun y => sightings n i (shows Γ y)) = sightings n i (l.flatMap (shows Γ)) := by
  induction l with
  | nil => rfl
  | cons y l ih =>
    rw [List.flatMap_cons, List.flatMap_cons, ih]
    simp only [sightings, List.filter_append, List.map_append]

/-- An observation uses the entry that it makes. -/
theorem observe_buckets {a : UInt32} {k : KademliaKey} (h : n.observe a k = some p) (i : Fin keyLenBits) :
    p.1.buckets i = (sightings n i [(a, k)]).foldl (Recency.use (·.key) n.config.k) (n.buckets i) := by
  have helse : ∀ j : Fin keyLenBits, longestMatchingPrefix n.key k = j → i ≠ j → sightings n i [(a, k)] = [] := by
    intro j hj hij
    have hne : longestMatchingPrefix n.key k ≠ i := fun h => hij (Fin.ext (h.symm.trans hj))
    simp [sightings, hne]
  have hone : ∀ j : Fin keyLenBits, longestMatchingPrefix n.key k = j → i = j → sightings n i [(a, k)] = [⟨k, a, n.epoch⟩] := by
    rintro j hj rfl
    simp [sightings, hj]
  have hbucket : ∀ (j : Fin keyLenBits) b, longestMatchingPrefix n.key k = j →
      Recency.use (·.key) n.config.k (n.buckets j) ⟨k, a, n.epoch⟩ = b → p.1 = n.setBucket j b →
        p.1.buckets i = (sightings n i [(a, k)]).foldl (Recency.use (·.key) n.config.k) (n.buckets i) := by
    intro j b hj hb hp
    by_cases hij : i = j
    · rw [hone j hj hij, hp, hij, buckets_setBucket_self]
      exact hb.symm
    · rw [helse j hj hij, hp, buckets_setBucket_of_ne n b hij]
      rfl
  simp only [observe, updateOrAddToBucket] at h
  split_ifs at h with hi hany hlen
  · cases h
    exact hbucket ⟨_, hi⟩ _ rfl (if_pos hany) rfl
  · cases h
    exact hbucket ⟨_, hi⟩ _ rfl ((if_neg hany).trans (if_pos hlen)) rfl
  · have hsame : n.setBucket ⟨_, hi⟩ (n.buckets ⟨_, hi⟩) = n := by
      simp [setBucket]
    split at h
    · cases h
    · cases h
      exact hbucket ⟨_, hi⟩ _ rfl ((if_neg hany).trans (if_neg hlen)) hsame.symm
  · cases h
    have hnone : longestMatchingPrefix n.key k ≠ i := fun h => hi (h ▸ i.2)
    simp [sightings, hnone]

theorem readFindNodes_eq (hΓ : Γ.Decodes) (hmsg : Decodable Γ msg) (ht : MessageType.ofCode msg.type = some .findNodes)
    (ch' : Choice) : readFindNodes Γ ch msg = readFindNodes Γ ch' msg := by
  simp only [Decodable, ht] at hmsg
  obtain ⟨fm, hfm⟩ := hmsg
  simp only [readFindNodes, hfm, hΓ.findNodes fm]

theorem readStore_eq (hΓ : Γ.Decodes) (hmsg : Decodable Γ msg) (ht : MessageType.ofCode msg.type = some .store)
    (ch' : Choice) : readStore Γ ch msg = readStore Γ ch' msg := by
  simp only [Decodable, ht] at hmsg
  obtain ⟨sm, hsm⟩ := hmsg
  simp only [readStore, hsm, hΓ.store sm]

/-- The `switch` of `handleMessage` hands on what the message shows and what it asks to store. -/
theorem dispatch_hands_on (hΓ : Γ.Decodes) (hmsg : Decodable Γ msg) :
    (n.dispatch Γ ch msg).flatMap (shows Γ) = contactsShown Γ msg ∧ (n.dispatch Γ ch msg).flatMap (stores Γ) = valuesIn Γ msg := by
  cases ht : MessageType.ofCode msg.type with
  | none =>
    simp only [KademliaNode.dispatch, contactsShown, valuesIn, ht]
    exact ⟨rfl, rfl⟩
  | some t =>
    simp only [KademliaNode.dispatch, contactsShown, valuesIn, ht]
    cases t with
    | ping => dsimp only; split_ifs <;> exact ⟨rfl, rfl⟩
    | findNodes =>
      have hread : Γ.findNodes.read msg.data (FindNodesMessage.unset ch) = readFindNodes Γ ⟨0, 0, false, 0⟩ msg :=
        readFindNodes_eq hΓ hmsg ht _
      simp only [hread]
      split_ifs with hlen hreq
      · exact ⟨rfl, rfl⟩
      · simp [shows, stores, hreq]
      · simp [shows, stores, hreq]
    | store =>
      have hread : Γ.store.read msg.data (StoreMessage.unset ch) = readStore Γ ⟨0, 0, false, 0⟩ msg := readStore_eq hΓ hmsg ht _
      simp only [hread]
      split_ifs <;> exact ⟨rfl, rfl⟩
    | findValue => exact ⟨rfl, rfl⟩

/-- The calls that hand on the parts of a message. -/
def handsOn : Call → Bool
  | .base (.handleMessage _) => true
  | .dispatch _ => true
  | .handleFindNodes _ _ => true
  | _ => false

/-- The other calls of a handling hand on nothing. -/
theorem makes_shows (h : Makes Γ ch n c y) (hpart : PartOf msg c) (hc : handsOn c = false) :
    shows Γ y = [] ∧ stores Γ y = [] := by
  cases h <;> first | exact ⟨rfl, rfl⟩ | exact absurd hpart not_false | cases hc

theorem exec_hands_on (hΓ : Γ.Decodes) (hmsg : Decodable Γ msg) (hpart : PartOf msg c) (hobs : ∀ a k, c ≠ .observe a k)
    (hstore : ∀ m sm, c ≠ .handleStore m sm) (h : exec Γ ch c n = some p) :
    p.2.flatMap (shows Γ) = shows Γ c ∧ p.2.flatMap (stores Γ) = stores Γ c := by
  cases hc : handsOn c with
  | true =>
    unfold handsOn at hc
    split at hc
    · cases h
      simp [execBase, shows, stores]
    · obtain rfl : _ = msg := hpart
      cases h
      exact dispatch_hands_on hΓ hmsg
    · rename_i m fm
      cases h
      unfold KademliaNode.handleFindNodes
      split_ifs with hreq
      · simp [shows, stores, hreq]
      · have hshows : (fm.nearest.map (fun e => Call.observe e.address e.key)).flatMap (shows Γ) =
            fm.nearest.map (fun e => (e.address, e.key)) := by
          rw [List.flatMap_map, List.map_eq_flatMap]
          rfl
        have hstores : (fm.nearest.map (fun e => Call.observe e.address e.key)).flatMap (stores Γ) = [] := by
          rw [List.flatMap_map]
          exact List.flatMap_eq_nil_iff.2 (fun e _ => rfl)
        exact ⟨by rw [hshows, shows, if_neg hreq], hstores⟩
    · cases hc
  | false =>
    have hnone : shows Γ c = [] ∧ stores Γ c = [] := by
      cases c with
      | observe a k => exact absurd rfl (hobs a k)
      | handleStore m sm => exact absurd rfl (hstore m sm)
      | dispatch | handleFindNodes => cases hc
      | base b =>
        cases b with
        | handleMessage => cases hc
        | _ => exact ⟨rfl, rfl⟩
      | _ => exact ⟨rfl, rfl⟩
    rw [hnone.1, hnone.2]
    refine ⟨List.flatMap_eq_nil_iff.2 (fun y hy => ?_), List.flatMap_eq_nil_iff.2 (fun y hy => ?_)⟩
    · exact (makes_shows (exec_makes h y hy) hpart hc).1
    · exact (makes_shows (exec_makes h y hy) hpart hc).2

/-- A call of a handling shows the contacts that it was given to show, or hands them on. -/
theorem exec_shows (hΓ : Γ.Decodes) (hmsg : Decodable Γ msg) (hn : Handling Γ n₀ n) (hc : InHandling Γ n₀.key msg c)
    (h : exec Γ ch c n = some p) (i : Fin keyLenBits) :
    (p.2.flatMap (fun y => sightings n₀ i (shows Γ y))).foldl (Recency.use (·.key) n₀.config.k) (p.1.buckets i) =
      (sightings n₀ i (shows Γ c)).foldl (Recency.use (·.key) n₀.config.k) (n.buckets i) := by
  rw [sightings_flatMap]
  by_cases hobs : ∃ a k, c = .observe a k
  · obtain ⟨a, k, rfl⟩ := hobs
    have hnone : p.2.flatMap (shows Γ) = [] :=
      List.flatMap_eq_nil_iff.2 (fun y hy => (makes_shows (exec_makes h y hy) hc.part rfl).1)
    have hsame : ∀ l, sightings n i l = sightings n₀ i l := by
      intro l
      unfold sightings
      rw [hn.key, hn.epoch]
    rw [hnone, observe_buckets h, hsame, hn.config]
    rfl
  · have hbuckets : p.1.buckets = n.buckets := by
      rcases exec_buckets h with
        he | ⟨a, k, rfl⟩ | ⟨ok, a, cb, m, rfl, -⟩ | ⟨ok, t, top, m, rfl, -⟩ | ⟨ok, j, e, hd, tl, rfl, -⟩
      · exact he
      · exact absurd ⟨a, k, rfl⟩ hobs
      · obtain rfl : ok = true := hc.part
        rcases success_cases hc.requests with ⟨b, cb', heq⟩ | ⟨t, top, heq⟩ <;> cases heq
      · obtain rfl : ok = true := hc.part
        rcases success_cases hc.requests with ⟨b, cb', heq⟩ | ⟨t', top', heq⟩ <;> cases heq
      · exact absurd rfl (hc.spares hc.part j e)
    have hshows : p.2.flatMap (shows Γ) = shows Γ c := by
      by_cases hstore : ∃ m sm, c = .handleStore m sm
      · obtain ⟨m, sm, rfl⟩ := hstore
        exact List.flatMap_eq_nil_iff.2 (fun y hy => (makes_shows (exec_makes h y hy) hc.part rfl).1)
      · exact (exec_hands_on hΓ hmsg hc.part (fun a k heq => hobs ⟨a, k, heq⟩) (fun m sm heq => hstore ⟨m, sm, heq⟩) h).1
    rw [hbuckets, hshows]

/-- A call of a handling stores the values that it was given to store, or hands them on. -/
theorem exec_stores (hΓ : Γ.Decodes) (hmsg : Decodable Γ msg) (hn : Handling Γ n₀ n) (hc : InHandling Γ n₀.key msg c)
    (h : exec Γ ch c n = some p) :
    (p.2.flatMap (stores Γ)).foldl (storeIn Γ n₀.epoch) p.1.table = (stores Γ c).foldl (storeIn Γ n₀.epoch) n.table := by
  by_cases hstore : ∃ m sm, c = .handleStore m sm
  · obtain ⟨m, sm, rfl⟩ := hstore
    have hnone : p.2.flatMap (stores Γ) = [] :=
      List.flatMap_eq_nil_iff.2 (fun y hy => (makes_shows (exec_makes h y hy) hc.part rfl).2)
    cases h
    rw [hnone, ← hn.epoch]
    exact table_storeValue n sm.value
  · have htable : p.1.table = n.table := by
      rcases exec_table h with he | ⟨m, sm, heq, -⟩ | ⟨rfl, -⟩
      · exact he
      · exact absurd ⟨m, sm, heq⟩ hstore
      · exact absurd hc.part not_false
    have hstores : p.2.flatMap (stores Γ) = stores Γ c := by
      by_cases hobs : ∃ a k, c = .observe a k
      · obtain ⟨a, k, rfl⟩ := hobs
        exact List.flatMap_eq_nil_iff.2 (fun y hy => (makes_shows (exec_makes h y hy) hc.part rfl).2)
      · exact (exec_hands_on hΓ hmsg hc.part (fun a k heq => hobs ⟨a, k, heq⟩) (fun m sm heq => hstore ⟨m, sm, heq⟩) h).2
    rw [htable, hstores]

/-! ## Handlings -/

variable {m m' : NodeConfig}

/-- While a message is handled, the node keeps what it is and all calls are part of the handling. -/
theorem handling_of_run (h₀ : Handling Γ n₀ m.state)
    (h : Run (nodeProgram Γ) (fun m l => undisturbed msg m l = true) ⟨m.state, [.base (.handleMessage msg)], m.trace⟩ m') :
    Handling Γ n₀ m'.state ∧ ∀ c ∈ m'.stack, InHandling Γ n₀.key msg c := by
  refine h.invariant_stack (S := Handling Γ n₀) (C := fun _ c => InHandling Γ n₀.key msg c)
    ⟨h₀, fun c hc => ?_⟩ ?_ ?_
  · rw [List.mem_singleton.1 hc]
    exact ⟨rfl, trivial, trivial⟩
  · rintro ch c rest n tr n' cs hn hc hrest - he
    obtain ⟨hn', hcs⟩ := handling_exec hn hc he
    exact ⟨hn', hcs, hrest⟩
  · rintro c n stack tr - hok -
    cases hok

/-- A handling shows a node the contacts of the message, one after the other. -/
theorem handles_buckets (hΓ : Γ.Decodes) (hmsg : Decodable Γ msg) (h₀ : Handling Γ n₀ m.state) (h : Handles Γ msg m m')
    (i : Fin keyLenBits) :
    m'.state.buckets i = (sightings n₀ i (contactsShown Γ msg)).foldl (Recency.use (·.key) n₀.config.k) (m.state.buckets i) := by
  obtain ⟨hr, hidle⟩ := h
  have hfold := hr.foldl_eq (w := fun c => sightings n₀ i (shows Γ c)) (a := Recency.use (·.key) n₀.config.k)
    (F := fun n => n.buckets i) ?_ (fun _ _ h => by cases h) ?_
  · rw [hidle] at hfold
    simpa [shows] using hfold
  · rintro ch c rest n tr n' cs hr' he
    obtain ⟨hn, hc⟩ := handling_of_run h₀ hr'
    exact exec_shows hΓ hmsg hn (hc c List.mem_cons_self) he i
  · intro c hc
    cases c with
    | userCode => rfl
    | _ => cases hc

/-- A handling stores the values of the message. -/
theorem handles_table (hΓ : Γ.Decodes) (hmsg : Decodable Γ msg) (h₀ : Handling Γ n₀ m.state) (h : Handles Γ msg m m') :
    m'.state.table = (valuesIn Γ msg).foldl (storeIn Γ n₀.epoch) m.state.table := by
  obtain ⟨hr, hidle⟩ := h
  have hfold := hr.foldl_eq (w := stores Γ) (a := storeIn Γ n₀.epoch) (F := fun n => n.table) ?_ (fun _ _ h => by cases h) ?_
  · rw [hidle] at hfold
    simpa [stores] using hfold
  · rintro ch c rest n tr n' cs hr' he
    obtain ⟨hn, hc⟩ := handling_of_run h₀ hr'
    exact exec_stores hΓ hmsg hn (hc c List.mem_cons_self) he
  · intro c hc
    cases c with
    | userCode => rfl
    | _ => cases hc

/-- While a message is handled no record is made of its tag. -/
theorem forgets_exec {rest : List Call} {tr : NodeTrace} (hc : InHandling Γ key msg c)
    (hok : undisturbed msg ⟨n, c :: rest, tr⟩ (.run ch) = true) (h : exec Γ ch c n = some p)
    (hnone : n.callbacks.find? msg.tag = none) : p.1.callbacks.find? msg.tag = none := by
  rcases exec_callbacks h with he | ⟨q, cb, mr, t, rfl, -, hcb, he⟩ | ⟨tag, rfl, he⟩ | ⟨tag, r, rfl, -⟩
  · rw [he, hnone]
  · rcases hc.requests with rfl | ⟨-, htag⟩
    · cases hcb
    · have hdrawn : (q.tagged ch.tag).tag = ch.tag := by simp [Message.tagged, htag]
      have hne : ch.tag ≠ msg.tag := by simpa [undisturbed, htag] using hok
      rw [he, hdrawn, SortedMap.find?_insert_of_ne _ _ (Ne.symm hne), hnone]
  · obtain rfl : tag = msg.tag := hc.part
    rw [he, SortedMap.find?_erase_self]
  · exact absurd hc.part not_false

/-- After a handling no record waits for another message of the same tag. -/
theorem handles_forgets (h₀ : Handling Γ n₀ m.state) (h : Handles Γ msg m m') :
    m'.state.callbacks.find? msg.tag = none := by
  obtain ⟨hr, hidle⟩ := h
  have hI : m'.state.callbacks.find? msg.tag = none ∨
      ∃ c ∈ m'.stack, c = .base (.handleMessage msg) ∨ c = .base (.receive msg) ∨ c = .base (.erase msg.tag) := by
    refine hr.invariant (I := fun m => m.state.callbacks.find? msg.tag = none ∨
      ∃ c ∈ m.stack, c = .base (.handleMessage msg) ∨ c = .base (.receive msg) ∨ c = .base (.erase msg.tag)) ?_ ?_
    · exact Or.inr ⟨_, List.mem_cons_self, Or.inl rfl⟩
    · intro m₁ l m₂ hr' hI hok hs
      obtain ⟨hn, hc⟩ := handling_of_run h₀ hr'
      cases hs with
      | @run ch c rest n tr n' cs hw he =>
        rcases hI with hnone | ⟨d, hd, hcase⟩
        · exact Or.inl (forgets_exec (hc c List.mem_cons_self) hok he hnone)
        · rcases List.mem_cons.1 hd with rfl | hd
          · rcases hcase with rfl | rfl | rfl
            · cases he
              exact Or.inr ⟨_, List.mem_cons_self, Or.inr (Or.inl rfl)⟩
            · cases hf : n.callbacks.find? msg.tag with
              | none =>
                simp only [nodeProgram, exec, execBase, BaseApplication.exec, hf] at he
                cases he
                exact Or.inl hf
              | some r =>
                simp only [nodeProgram, exec, execBase, BaseApplication.exec, hf] at he
                cases he
                exact Or.inr ⟨_, by simp, Or.inr (Or.inr rfl)⟩
            · cases he
              exact Or.inl (SortedMap.find?_erase_self _ _)
          · exact Or.inr ⟨d, List.mem_append_right _ hd, hcase⟩
      | event hx => cases hok
      | reentry hf hx => cases hok
      | @leave f rest n tr hf =>
        refine hI.imp_right ?_
        rintro ⟨d, hd, hcase⟩
        rcases List.mem_cons.1 hd with rfl | hd
        · rcases hcase with rfl | rfl | rfl <;> cases hf
        · exact ⟨d, hd, hcase⟩
  rcases hI with hnone | ⟨c, hc, -⟩
  · exact hnone
  · rw [hidle] at hc
    cases hc

/-! ## The second handling -/

/-- The calls of a handling in which nothing waits for the message. -/
def Plain : Call → Prop
  | .base (.handleMessage _) => True
  | .base (.receive _) => True
  | .base (.send _ _ _ _) => True
  | .dispatch _ => True
  | .handleFindNodes _ _ => True
  | .handleStore _ _ => True
  | .observe _ _ => True
  | .ping _ _ => True
  | _ => False

theorem plain_of_makes (h : Makes Γ ch n c y) (hpart : PartOf msg c) (hc : Plain c) (hlive : n.dead = false)
    (hnone : n.callbacks.find? msg.tag = none) : Plain y := by
  cases h with
  | resolve hf | resolveErase hf =>
    obtain rfl : _ = msg := hpart
    rw [hnone] at hf
    cases hf
  | sendDead hd =>
    rw [hlive] at hd
    cases hd
  | _ => trivial

theorem plain_exec (hc : Plain c) (h : exec Γ ch c n = some p) : p.1.nodesBeingFound = n.nodesBeingFound := by
  obtain ⟨n', cs⟩ := p
  have hch : Changes n c n' := exec_changes h
  cases hch with
  | lookups f hmoves =>
    cases c with
    | base b =>
      cases b with
      | callback => exact absurd hc not_false
      | _ => cases hmoves
    | lookup | findNodesStep | findNodesFinish | eraseFinder => exact absurd hc not_false
    | _ => cases hmoves
  | findFailed => exact absurd hc not_false
  | _ => rfl

/-- When no record waits for the message, a handling leaves the lookups as they are and runs no callback. -/
theorem handles_plain (h₀ : Handling Γ n₀ m.state) (hnone : m.state.callbacks.find? msg.tag = none) (h : Handles Γ msg m m') :
    m'.state.nodesBeingFound = m.state.nodesBeingFound ∧
      ∃ tr, m'.trace = tr ++ m.trace ∧ ∀ e ∈ tr, e.1.isCallback = false := by
  obtain ⟨hr, -⟩ := h
  have hI : ∀ m₁, Run (nodeProgram Γ) (fun m l => undisturbed msg m l = true) ⟨m.state, [.base (.handleMessage msg)], m.trace⟩ m₁ →
      ((m₁.state.callbacks.find? msg.tag = none ∧ m₁.state.nodesBeingFound = m.state.nodesBeingFound) ∧
        ∀ c ∈ m₁.stack, Plain c) := by
    intro m₁ hr₁
    refine hr₁.invariant (I := fun m₁ => (m₁.state.callbacks.find? msg.tag = none ∧
      m₁.state.nodesBeingFound = m.state.nodesBeingFound) ∧ ∀ c ∈ m₁.stack, Plain c) ⟨⟨hnone, rfl⟩, ?_⟩ ?_
    · intro c hc
      rw [List.mem_singleton.1 hc]
      trivial
    · rintro m₁ l m₂ hr₁ ⟨⟨hnone, hsame⟩, hplain⟩ hok hs
      obtain ⟨hn, hc⟩ := handling_of_run h₀ hr₁
      cases hs with
      | @run ch c rest n tr n' cs hw he =>
        have hin := hc c List.mem_cons_self
        have hpc := hplain c List.mem_cons_self
        refine ⟨⟨forgets_exec hin hok he hnone, (plain_exec hpc he).trans hsame⟩, fun y hy => ?_⟩
        rcases List.mem_append.1 hy with hy | hy
        · exact plain_of_makes (exec_makes he y hy) hin.part hpc hn.live hnone
        · exact hplain y (List.mem_cons_of_mem _ hy)
      | event hx => cases hok
      | reentry hf hx => cases hok
      | leave hf => exact ⟨⟨hnone, hsame⟩, fun c hc => hplain c (List.mem_cons_of_mem _ hc)⟩
  refine ⟨(hI m' hr).1.2, ?_⟩
  refine hr.invariant (I := fun m₁ => ∃ tr, m₁.trace = tr ++ m.trace ∧ ∀ e ∈ tr, e.1.isCallback = false)
    ⟨[], rfl, fun e he => absurd he List.not_mem_nil⟩ ?_
  rintro m₁ l m₂ hr₁ ⟨tr, htr, hquiet⟩ hok hs
  cases hs with
  | @run ch c rest n tr₁ n' cs hw he =>
    have hpc := (hI _ hr₁).2 c List.mem_cons_self
    refine ⟨(c, ch) :: tr, congrArg _ htr, fun e he => ?_⟩
    rcases List.mem_cons.1 he with rfl | he
    · cases c with
      | base b =>
        cases b with
        | callback => exact absurd hpc not_false
        | _ => rfl
      | pinged | found | refreshed | refreshDone | fetched => exact absurd hpc not_false
      | _ => rfl
    · exact hquiet e he
  | event hx => cases hok
  | reentry hf hx => cases hok
  | leave hf => exact ⟨tr, htr, hquiet⟩

/-- The entries that contacts make in a bucket are as many for a key as the contacts show it, or none. -/
theorem count_sightings {i : Fin keyLenBits} {contacts : List (UInt32 × KademliaKey)} {x : BucketEntry}
    (hx : x ∈ sightings n i contacts) :
    Recency.count (·.key) x.key (sightings n i contacts) = contacts.countP (fun d => decide (d.2 = x.key)) := by
  obtain ⟨c, hc, rfl⟩ := List.mem_map.1 hx
  have hplace := of_decide_eq_true (List.mem_filter.1 hc).2
  unfold Recency.count sightings
  rw [List.countP_map, List.countP_filter]
  refine List.countP_congr (fun d _ => ?_)
  simp only [Function.comp_apply, Bool.and_eq_true, decide_eq_true_eq]
  refine ⟨fun h => h.1, fun h => ⟨h, ?_⟩⟩
  rw [h]
  exact hplace

end DuplicatesAux

open DuplicatesAux

/-- To handle a message twice in a row leaves the table and the lookups of a live node as after the first time, and runs no
callback the second time. The buckets are as after the first time if none has more entries of a key than the message shows the
key; and only then, unless the node saw such a key in the same epoch before. -/
theorem duplicate_delivery {Γ : Ctx} {config : Config} {key : KademliaKey} {offset : Time} {msg : Message UInt32}
    {m m₁ m₂ : NodeConfig} (hΓ : Γ.Decodes) (hr : Run (nodeProgram Γ) anyStep (startNode config key offset) m)
    (hlive : m.state.dead = false) (hmsg : Decodable Γ msg) (h₁ : Handles Γ msg m m₁) (h₂ : Handles Γ msg m₁ m₂) :
    (FewCopies m.state (contactsShown Γ msg) → m₂.state.buckets = m₁.state.buckets) ∧
    ((∀ i, ∀ c ∈ contactsShown Γ msg, ∀ e ∈ m.state.buckets i, e.key = c.2 → e.lastSeen ≠ m.state.epoch) →
      m₂.state.buckets = m₁.state.buckets → FewCopies m.state (contactsShown Γ msg)) ∧
    m₂.state.table = m₁.state.table ∧ m₂.state.nodesBeingFound = m₁.state.nodesBeingFound ∧
    ∃ tr, m₂.trace = tr ++ m₁.trace ∧ ∀ e ∈ tr, e.1.isCallback = false := by
  have h₀ : Handling Γ m.state m.state :=
    ⟨rfl, rfl, rfl, hlive, (fromRequests_of_run hr).1.2, nodeSpares_of_run hr⟩
  have hmid : Handling Γ m.state m₁.state := (handling_of_run h₀ h₁.1).1
  have honce := handles_buckets hΓ hmsg h₀ h₁
  have htwice := handles_buckets hΓ hmsg hmid h₂
  have htable : m₂.state.table = m₁.state.table := by
    rw [handles_table hΓ hmsg hmid h₂, handles_table hΓ hmsg h₀ h₁]
    unfold valuesIn
    split
    · dsimp only
      split_ifs
      · exact storeIn_storeIn _ _ _
      · rfl
    · rfl
  have hself : Handling Γ m₁.state m₁.state := ⟨rfl, rfl, rfl, hmid.live, hmid.requests, hmid.spares⟩
  obtain ⟨hlookups, hquiet⟩ := handles_plain hself (handles_forgets h₀ h₁) h₂
  refine ⟨fun hfew => ?_, fun hfresh hsame i c hc => ?_, htable, hlookups, hquiet⟩
  · funext i
    rw [htwice i, honce i]
    refine Recency.uses_uses (fun x hx => ?_)
    rw [count_sightings hx]
    obtain ⟨c, hc, rfl⟩ := List.mem_map.1 hx
    exact hfew i c (List.mem_filter.1 hc).1
  · by_cases hplace : longestMatchingPrefix m.state.key c.2 = i
    · have hmem : (⟨c.2, c.1, m.state.epoch⟩ : BucketEntry) ∈ sightings m.state i (contactsShown Γ msg) :=
        List.mem_map.2 ⟨c, List.mem_filter.2 ⟨hc, decide_eq_true hplace⟩, rfl⟩
      have hle := Recency.count_le_of_uses_uses (q := fun e => decide (e.lastSeen = m.state.epoch)) hmem ?_ ?_
        ((honce i ▸ htwice i).symm.trans ((congrFun hsame i).trans (honce i)))
      · rw [count_sightings hmem] at hle
        exact hle
      · intro y hy
        obtain ⟨d, -, rfl⟩ := List.mem_map.1 hy
        exact decide_eq_true rfl
      · intro y hy hkey
        exact decide_eq_false (hfresh i c hc y hy hkey)
    · refine le_of_eq_of_le (List.countP_eq_zero.2 (fun e he hkey => hplace ?_)) (Nat.zero_le _)
      rw [← of_decide_eq_true hkey]
      exact (wellPlaced_of_run hr).1.2.place i e he

/-- The answer of the node with the address 3 to a ping. -/
def pongOfThree (tag : Tag) : Message UInt32 :=
  ⟨MessageType.ping.code, 3, 0, tag, Ctx.reference.ping.write (PingMessage.pong (.starting 0x83))⟩

theorem decodable_pongOfThree (tag : Tag) : Decodable .reference (pongOfThree tag) := ⟨_, rfl⟩

/-- The check that two lists of steps are two handlings of a message, one after the other. -/
def handlesTwice (Γ : Ctx) (msg : Message UInt32) (ls ls' : List NodeLabel) (q : NodeConfig → NodeConfig → Bool)
    (m : NodeConfig) : Bool :=
  (follow (nodeProgram Γ) (undisturbed msg) ⟨m.state, [.base (.handleMessage msg)], m.trace⟩ ls).any (fun m₁ =>
    m₁.stack.isEmpty && (follow (nodeProgram Γ) (undisturbed msg) ⟨m₁.state, [.base (.handleMessage msg)], m₁.trace⟩ ls').any
      (fun m₂ => m₂.stack.isEmpty && q m₁ m₂))

theorem exists_handles {Γ : Ctx} {msg : Message UInt32} {ls ls' : List NodeLabel} {q : NodeConfig → NodeConfig → Bool}
    {m : NodeConfig} (h : handlesTwice Γ msg ls ls' q m = true) :
    ∃ m₁ m₂, Handles Γ msg m m₁ ∧ Handles Γ msg m₁ m₂ ∧ q m₁ m₂ = true := by
  obtain ⟨m₁, hr₁, hm₁⟩ := exists_run_of_follow _ _ _ _ _ h
  obtain ⟨hidle₁, hm₂⟩ := Bool.and_eq_true_iff.1 hm₁
  obtain ⟨m₂, hr₂, hm₂⟩ := exists_run_of_follow _ _ _ _ _ hm₂
  obtain ⟨hidle₂, hq⟩ := Bool.and_eq_true_iff.1 hm₂
  exact ⟨m₁, m₂, ⟨hr₁, List.isEmpty_iff.1 hidle₁⟩, ⟨hr₂, List.isEmpty_iff.1 hidle₂⟩, hq⟩

/-- A node that pinged another one handles the answer twice: the callback of the ping runs the first time. -/
theorem duplicate_delivery_sample : ∃ m m₁ m₂ : NodeConfig, Handles .reference (pongOfThree 2) m m₁ ∧
    Handles .reference (pongOfThree 2) m₁ m₂ ∧ m₁.trace.any (fun e => e.1.isCallback) = true ∧
      m₁.state.buckets ⟨0, by decide⟩ = [⟨.starting 0x83, 3, 0⟩] ∧ m₂.state.buckets = m₁.state.buckets := by
  obtain ⟨m, hr, hm⟩ := exists_run_of_follow (nodeProgram .reference) (fun _ _ => true)
    (startNode ⟨3, 10000, 1000⟩ .zero 700) ([.enter (.ping 3 .empty)] ++ runs 1 2)
    (fun m => (!m.state.dead && (List.finRange keyLenBits).all (fun i => (m.state.buckets i).isEmpty)) &&
      handlesTwice .reference (pongOfThree 2) (runs 10 6) (runs 20 4) (fun m₁ _ => m₁.trace.any (fun e => e.1.isCallback) &&
        decide (m₁.state.buckets ⟨0, by decide⟩ = [⟨.starting 0x83, 3, 0⟩])) m) (by decide +kernel)
  obtain ⟨hm, hboth⟩ := Bool.and_eq_true_iff.1 hm
  simp only [Bool.and_eq_true, Bool.not_eq_true', List.all_eq_true, List.isEmpty_iff] at hm
  obtain ⟨hlive, hempty⟩ := hm
  obtain ⟨m₁, m₂, h₁, h₂, hq⟩ := exists_handles hboth
  obtain ⟨hcallback, hbucket⟩ := Bool.and_eq_true_iff.1 hq
  have hfew : FewCopies m.state (contactsShown .reference (pongOfThree 2)) := by
    intro i c hc
    rw [hempty i (List.mem_finRange i)]
    exact Nat.zero_le _
  exact ⟨m, m₁, m₂, h₁, h₂, hcallback, of_decide_eq_true hbucket,
    (duplicate_delivery Ctx.reference_decodes (run_anyStep hr) hlive (decodable_pongOfThree 2) h₁ h₂).1 hfew⟩

/-- A bucket with two entries of one key: the answer of that contact moves the first of them to the end, and its duplicate moves
the second. -/
theorem duplicate_delivery_false : ∃ m m₁ m₂ : NodeConfig, Run (nodeProgram .reference) (fun m l => freshTags m l = true)
      (startNode ⟨3, 10000, 1000⟩ .zero 700) m ∧ m.stack = [] ∧ m.state.dead = false ∧
    Handles .reference (pongOfThree 1) m m₁ ∧ Handles .reference (pongOfThree 1) m₁ m₂ ∧
    m₁.state.buckets ⟨0, by decide⟩ = [⟨.starting 0x83, 3, 3⟩, ⟨.starting 0x83, 3, 9⟩] ∧
    m₂.state.buckets ⟨0, by decide⟩ = [⟨.starting 0x83, 3, 9⟩, ⟨.starting 0x83, 3, 9⟩] := by
  obtain ⟨m, hr, hm⟩ := exists_run_of_follow (nodeProgram .reference) freshTags
    (startNode ⟨3, 10000, 1000⟩ .zero 700) addedTwice
    (fun m => (m.stack.isEmpty && !m.state.dead) &&
      handlesTwice .reference (pongOfThree 1) (runs 60 4) (runs 70 4) (fun m₁ m₂ =>
        decide (m₁.state.buckets ⟨0, by decide⟩ = [⟨.starting 0x83, 3, 3⟩, ⟨.starting 0x83, 3, 9⟩]) &&
        decide (m₂.state.buckets ⟨0, by decide⟩ = [⟨.starting 0x83, 3, 9⟩, ⟨.starting 0x83, 3, 9⟩])) m) (by decide +kernel)
  obtain ⟨hm, hboth⟩ := Bool.and_eq_true_iff.1 hm
  simp only [Bool.and_eq_true, Bool.not_eq_true', List.isEmpty_iff] at hm
  obtain ⟨m₁, m₂, h₁, h₂, hq⟩ := exists_handles hboth
  simp only [Bool.and_eq_true, decide_eq_true_eq] at hq
  exact ⟨m, m₁, m₂, hr, hm.1, hm.2, h₁, h₂, hq.1, hq.2⟩

end Dhtsim
