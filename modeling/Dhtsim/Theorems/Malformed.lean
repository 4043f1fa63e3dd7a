import Dhtsim.Theorems.Duplicates

/-!
# Messages that do not decode

`handleMessage` does not look at whether a message could be decoded: it goes on with its structure, in which what was not read
is as it was before. So a malformed message asks for a reply and shows a contact like any other (`malformed`). It leaves the
node alone if that happens to change nothing.
-/

namespace Dhtsim

open CallMachine KademliaNode DuplicatesAux

/-- The contacts that a message shows the node, as far as it was read: what was not is what the node found in its structure. -/
def contactsRead (Γ : Ctx) (ch : Choice) (m : Message UInt32) : List (UInt32 × KademliaKey) :=
  match MessageType.ofCode m.type with
  | some .ping => [(m.originator, (readPing Γ m).sender)]
  | some .findNodes =>
    if m.data.length < 1 + keyLen + 4 then []
    else
      (m.originator, (readFindNodes Γ ch m).sender) ::
        if (readFindNodes Γ ch m).request then [] else (readFindNodes Γ ch m).nearest.map (fun e => (e.address, e.key))
  | some .store => [(m.originator, (readStore Γ ch m).sender)]
  | _ => []

/-- Whether a message asks for a reply, as far as it was read. -/
def asksReply (Γ : Ctx) (ch : Choice) (m : Message UInt32) : Bool :=
  match MessageType.ofCode m.type with
  | some .ping => (readPing Γ m).pingOrPong
  | some .findNodes => !decide (m.data.length < 1 + keyLen + 4) && (readFindNodes Γ ch m).request
  | some .store => (readStore Γ ch m).request
  | _ => false

/-- The message asks for no reply, and the contacts that it shows repeat the ends of their buckets. -/
def Harmless (Γ : Ctx) (ch : Choice) (n : KademliaNode) (m : Message UInt32) : Prop :=
  asksReply Γ ch m = false ∧
    ∀ i, Recency.Current (·.key) (n.buckets i) (sightings n i (contactsRead Γ ch m))

instance (Γ : Ctx) (ch : Choice) (n : KademliaNode) (m : Message UInt32) : Decidable (Harmless Γ ch n m) :=
  inferInstanceAs (Decidable (_ ∧ _))

/-- In buckets with distinct keys this means: the last of the contacts that were shown, each as it was shown last, are the
ends of their buckets, seen in this epoch. -/
theorem harmless_iff_of_nodup {Γ : Ctx} {ch : Choice} {n : KademliaNode} {m : Message UInt32}
    (hn : ∀ i, ((n.buckets i).map (·.key)).Nodup) : Harmless Γ ch n m ↔ asksReply Γ ch m = false ∧
      ∀ i, (∀ x ∈ sightings n i (contactsRead Γ ch m), x.key ∈ (n.buckets i).map (·.key)) ∧
        Recency.lasts (·.key) (fun _ => 1) (sightings n i (contactsRead Γ ch m)) <:+ n.buckets i :=
  and_congr_right (fun _ => forall_congr' (fun i => Recency.current_iff_of_nodup (hn i)))

/-- The node handles a message, from the call until it has returned. -/
def Handled (Γ : Ctx) (msg : Message UInt32) (m m' : NodeConfig) : Prop :=
  Run (nodeProgram Γ) (fun m _ => m.stack ≠ []) ⟨m.state, [.base (.handleMessage msg)], m.trace⟩ m' ∧ m'.stack = []

/-- Buckets, table, lookups and pings are as before, and nothing more was handed to `send`: no reply, and no ping either. -/
def LeftAlone (m m' : NodeConfig) : Prop :=
  m'.state.buckets = m.state.buckets ∧ m'.state.table = m.state.table ∧
    m'.state.nodesBeingFound = m.state.nodesBeingFound ∧ m'.state.pingsInProgress = m.state.pingsInProgress ∧
    m'.trace.flatMap (fun e => e.1.handsOver) = m.trace.flatMap (fun e => e.1.handsOver)

namespace MalformedAux

variable {Γ : Ctx} {ch : Choice} {c : Call} {n n₀ : KademliaNode} {p : KademliaNode × List Call} {msg : Message UInt32}
  {m m' : NodeConfig} {tr tr₀ : NodeTrace} {rest : List Call} {cs : List (UInt32 × KademliaKey)}

/-! ## What cannot be undone -/

/-- The calls of the handling of a message that no record waits for, after its `switch`. -/
def Tame : Call → Prop
  | .observe _ _ => True
  | .handleFindNodes _ _ => True
  | .handleStore _ _ => True
  | .ping _ cb => cb.failureFns ≠ []
  | .base (.send _ _ _ _) => True
  | _ => False

/-- The calls that lead to a message that is sent, or to a ping. -/
def asks : Call → Bool
  | .handleFindNodes _ fm => fm.request
  | .handleStore _ _ => true
  | .ping _ _ => true
  | .base (.send _ _ _ _) => true
  | _ => false

/-- How many functions wait for a ping of the address, and whether there is one. -/
def waiters (n : KademliaNode) (a : UInt32) : Nat :=
  match n.pingsInProgress.find? a with
  | none => 0
  | some cb => cb.failureFns.length + 1

/-- What a call of the handling does to a live node: nothing gets less, and what leads to a message that is sent or to a ping
goes on to do so. -/
structure Grows (n : KademliaNode) (c : Call) (p : KademliaNode × List Call) : Prop where
  live : p.1.dead = false
  tame : ∀ x ∈ p.2, Tame x
  waiters : ∀ a, waiters n a ≤ waiters p.1 a
  buckets : ∀ i, (n.buckets i).length ≤ (p.1.buckets i).length
  asks : asks c = true → (∃ x ∈ p.2, asks x = true) ∨ c.handsOver ≠ [] ∨
    ∃ a, MalformedAux.waiters n a < MalformedAux.waiters p.1 a

theorem grows_observe {a : UInt32} {k : KademliaKey} (he : n.observe a k = some p) (hlive : n.dead = false) :
    Grows n (.observe a k) p := by
  rcases observe_cases he with ⟨-, rfl⟩ | ⟨i, -, ⟨l₁, old, l₂, hb, -, -, rfl⟩ | ⟨-, -, rfl⟩ | ⟨-, -, lrs, rest, -, rfl⟩⟩
  · exact ⟨hlive, by simp, fun a => Nat.le_refl _, fun i => Nat.le_refl _, fun h => by cases h⟩
  · refine ⟨hlive, by simp, fun a => Nat.le_refl _, fun j => ?_, fun h => by cases h⟩
    by_cases hj : j = i
    · subst hj
      rw [buckets_setBucket_self, hb]
      simp only [List.length_append, List.length_cons, List.length_nil]
      omega
    · rw [buckets_setBucket_of_ne _ _ hj]
  · refine ⟨hlive, by simp, fun a => Nat.le_refl _, fun j => ?_, fun h => by cases h⟩
    by_cases hj : j = i
    · subst hj
      rw [buckets_setBucket_self, List.length_append]
      omega
    · rw [buckets_setBucket_of_ne _ _ hj]
  · refine ⟨hlive, fun x hx => ?_, fun a => Nat.le_refl _, fun i => Nat.le_refl _, fun h => by cases h⟩
    rw [List.mem_singleton.1 hx]
    exact List.cons_ne_nil _ _

theorem grows_handleFindNodes (m : Message UInt32) (fm : FindNodesMessage) (hlive : n.dead = false) :
    Grows n (.handleFindNodes m fm) (n, n.handleFindNodes Γ m fm) := by
  unfold KademliaNode.handleFindNodes
  split_ifs with hreq
  · refine ⟨hlive, fun x hx => ?_, fun a => Nat.le_refl _, fun i => Nat.le_refl _, fun _ => Or.inl ⟨_, List.mem_cons_self, rfl⟩⟩
    rw [List.mem_singleton.1 hx]
    trivial
  · refine ⟨hlive, fun x hx => ?_, fun a => Nat.le_refl _, fun i => Nat.le_refl _, fun h => absurd h hreq⟩
    obtain ⟨e, -, rfl⟩ := List.mem_map.1 hx
    trivial

theorem grows_handleStore (m : Message UInt32) (sm : StoreMessage) (hlive : n.dead = false) :
    Grows n (.handleStore m sm) (n.handleStore Γ m sm) := by
  refine ⟨?_, fun x hx => ?_, fun a => ?_, fun i => ?_, fun _ => Or.inl ⟨_, List.mem_cons_self, rfl⟩⟩
  · rw [KademliaNode.handleStore, storeValue_eq]
    exact hlive
  · rw [List.mem_singleton.1 hx]
    trivial
  · rw [KademliaNode.handleStore, storeValue_eq]
    exact Nat.le_refl _
  · rw [KademliaNode.handleStore, storeValue_eq]

theorem grows_ping (a : UInt32) {cb : CallbackSet PingFn} (hcb : cb.failureFns ≠ []) (hlive : n.dead = false) :
    Grows n (.ping a cb) (n.ping Γ a cb) := by
  have hmore : waiters n a < waiters (n.ping Γ a cb).1 a := by
    unfold waiters KademliaNode.ping
    cases hf : n.pingsInProgress.find? a with
    | none =>
      simp only [SortedMap.find?_insert_self]
      omega
    | some cb' =>
      have hpos := List.length_pos_iff.2 hcb
      simp only [SortedMap.find?_insert_self, CallbackSet.add, List.length_append]
      omega
  refine ⟨?_, fun x hx => ?_, fun b => ?_, fun i => ?_, fun _ => Or.inr (Or.inr ⟨a, hmore⟩)⟩
  · rw [ping_eq]
    exact hlive
  · unfold KademliaNode.ping at hx
    split at hx
    · cases hx
    · rw [List.mem_singleton.1 hx]
      trivial
  · by_cases hb : b = a
    · subst hb
      exact hmore.le
    · have hother : (n.ping Γ a cb).1.pingsInProgress.find? b = n.pingsInProgress.find? b := by
        unfold KademliaNode.ping
        split <;> exact SortedMap.find?_insert_of_ne _ _ hb
      rw [waiters, waiters, hother]
  · rw [ping_eq]

theorem grows_send (m : Message UInt32) (cb : CallbackSet SendFn) (mr : UInt32) (t : UInt64) (hlive : n.dead = false) :
    Grows n (.base (.send m cb mr t)) (n.execBase Γ ch (.send m cb mr t)) := by
  have hlive : n.toBaseApplication.dead = false := hlive
  have hcalls : (n.execBase Γ ch (.send m cb mr t)).2 = [] := by
    simp only [execBase, BaseApplication.exec, BaseApplication.send_of_live hlive, List.map_nil]
  refine ⟨?_, fun x hx => ?_, fun a => Nat.le_refl _, fun i => Nat.le_refl _, fun _ => Or.inr (Or.inl (List.cons_ne_nil _ _))⟩
  · have he : exec Γ ch (.base (.send m cb mr t)) n = some (n.execBase Γ ch (.send m cb mr t)) := rfl
    exact (exec_dead he (by simp)).trans hlive
  · rw [hcalls] at hx
    cases hx

theorem grows_exec (he : exec Γ ch c n = some p) (hc : Tame c) (hlive : n.dead = false) : Grows n c p := by
  cases c with
  | observe a k => exact grows_observe he hlive
  | handleFindNodes m fm =>
    cases he
    exact grows_handleFindNodes m fm hlive
  | handleStore m sm =>
    cases he
    exact grows_handleStore m sm hlive
  | ping a cb =>
    cases he
    exact grows_ping a hc hlive
  | base b =>
    cases b with
    | send m cb mr t =>
      cases he
      exact grows_send m cb mr t hlive
    | _ => exact absurd hc not_false
  | _ => exact absurd hc not_false

/-- The handling has left, or is bound to leave, something behind. -/
structure Loud (n₀ : KademliaNode) (tr₀ : NodeTrace) (m : NodeConfig) : Prop where
  live : m.state.dead = false
  tame : ∀ c ∈ m.stack, Tame c
  sent : (tr₀.flatMap (fun e => e.1.handsOver)).length ≤ (m.trace.flatMap (fun e => e.1.handsOver)).length
  waiters : ∀ a, waiters n₀ a ≤ waiters m.state a
  buckets : ∀ i, (n₀.buckets i).length ≤ (m.state.buckets i).length
  loud : (∃ c ∈ m.stack, asks c = true) ∨
    (tr₀.flatMap (fun e => e.1.handsOver)).length < (m.trace.flatMap (fun e => e.1.handsOver)).length ∨
    (∃ a, MalformedAux.waiters n₀ a < MalformedAux.waiters m.state a) ∨
    ∃ i, (n₀.buckets i).length < (m.state.buckets i).length

theorem loud_exec (h : Loud n₀ tr₀ ⟨n, c :: rest, tr⟩) (he : exec Γ ch c n = some p) :
    Loud n₀ tr₀ ⟨p.1, p.2 ++ rest, (c, ch) :: tr⟩ := by
  have hgrows := grows_exec he (h.tame c List.mem_cons_self) h.live
  have hsent : ((c, ch) :: tr).flatMap (fun e => e.1.handsOver) = c.handsOver ++ tr.flatMap (fun e => e.1.handsOver) := rfl
  refine ⟨hgrows.live, fun x hx => ?_, ?_, fun a => (h.waiters a).trans (hgrows.waiters a),
    fun i => (h.buckets i).trans (hgrows.buckets i), ?_⟩
  · rcases List.mem_append.1 hx with hx | hx
    · exact hgrows.tame x hx
    · exact h.tame x (List.mem_cons_of_mem _ hx)
  · rw [hsent, List.length_append]
    exact h.sent.trans (Nat.le_add_left _ _)
  · rcases h.loud with ⟨x, hx, hask⟩ | hmore | ⟨a, hmore⟩ | ⟨i, hmore⟩
    · rcases List.mem_cons.1 hx with rfl | hx
      · rcases hgrows.asks hask with ⟨y, hy, hask⟩ | hne | ⟨a, hmore⟩
        · exact Or.inl ⟨y, List.mem_append_left _ hy, hask⟩
        · right
          left
          rw [hsent, List.length_append]
          have hle : (tr₀.flatMap (fun e => e.1.handsOver)).length ≤ (tr.flatMap (fun e => e.1.handsOver)).length := h.sent
          have hpos := List.length_pos_iff.2 hne
          omega
        · exact Or.inr (Or.inr (Or.inl ⟨a, (h.waiters a).trans_lt hmore⟩))
      · exact Or.inl ⟨x, List.mem_append_right _ hx, hask⟩
    · right
      left
      rw [hsent, List.length_append]
      exact hmore.trans_le (Nat.le_add_left _ _)
    · exact Or.inr (Or.inr (Or.inl ⟨a, hmore.trans_le (hgrows.waiters a)⟩))
    · exact Or.inr (Or.inr (Or.inr ⟨i, hmore.trans_le (hgrows.buckets i)⟩))

/-- What was loud until it had returned left something behind. -/
theorem not_leftAlone_of_loud (h : Loud m.state m.trace m') (hidle : m'.stack = []) : ¬ LeftAlone m m' := by
  rintro ⟨hbuckets, -, -, hpings, hsent⟩
  rcases h.loud with ⟨x, hx, -⟩ | hmore | ⟨a, hmore⟩ | ⟨i, hmore⟩
  · rw [hidle] at hx
    cases hx
  · rw [hsent] at hmore
    exact Nat.lt_irrefl _ hmore
  · rw [waiters, waiters, hpings] at hmore
    exact Nat.lt_irrefl _ hmore
  · rw [hbuckets] at hmore
    exact Nat.lt_irrefl _ hmore

/-! ## What changes nothing so far -/

/-- The calls that show the node contacts and ask for nothing. -/
def Quiet : Call → Prop
  | .observe _ _ => True
  | .handleFindNodes _ fm => fm.request = false
  | _ => False

/-- A contact of the list has no entry. -/
def Unknown (n : KademliaNode) (cs : List (UInt32 × KademliaKey)) : Prop :=
  ∃ i, ∃ x ∈ sightings n i cs, x.key ∉ (n.buckets i).map (·.key)

/-- The node has renewed the entries of the first contacts, and has done nothing else. -/
structure Calm (Γ : Ctx) (n₀ : KademliaNode) (tr₀ : NodeTrace) (cs : List (UInt32 × KademliaKey)) (m : NodeConfig) : Prop where
  quiet : ∀ c ∈ m.stack, Quiet c
  same : m.state = { n₀ with buckets := m.state.buckets }
  sent : m.trace.flatMap (fun e => e.1.handsOver) = tr₀.flatMap (fun e => e.1.handsOver)
  shown : ∃ seen, seen ++ m.stack.flatMap (shows Γ) = cs ∧ ∀ i,
    (∀ x ∈ sightings n₀ i seen, x.key ∈ (n₀.buckets i).map (·.key)) ∧
      m.state.buckets i = (sightings n₀ i seen).foldl (Recency.renew (·.key)) (n₀.buckets i)

theorem sightings_append (n : KademliaNode) (i : Fin keyLenBits) (l l' : List (UInt32 × KademliaKey)) :
    sightings n i (l ++ l') = sightings n i l ++ sightings n i l' := by
  simp only [sightings, List.filter_append, List.map_append]

theorem Calm.tame (h : Calm Γ n₀ tr₀ cs m) : ∀ c ∈ m.stack, Tame c := by
  intro c hc
  have hq := h.quiet c hc
  cases c with
  | observe | handleFindNodes => trivial
  | _ => exact absurd hq not_false

/-- Nothing got less so far. -/
theorem Calm.loud (h : Calm Γ n₀ tr₀ cs m) (hlive : n₀.dead = false) : (∀ a, waiters n₀ a ≤ waiters m.state a) ∧
    (∀ i, (m.state.buckets i).length = (n₀.buckets i).length) ∧ m.state.dead = false := by
  refine ⟨fun a => ?_, fun i => ?_, ?_⟩
  · rw [h.same]
    exact Nat.le_refl _
  · obtain ⟨seen, -, hseen⟩ := h.shown
    rw [(hseen i).2]
    exact (Recency.foldl_renew_keys (hseen i).1).1
  · rw [h.same]
    exact hlive

/-- The bucket of a contact, if it is not the node itself. -/
theorem mem_sightings_singleton {i : Fin keyLenBits} {a : UInt32} {k : KademliaKey} {x : BucketEntry} :
    x ∈ sightings n i [(a, k)] ↔ longestMatchingPrefix n.key k = i ∧ x = ⟨k, a, n.epoch⟩ := by
  unfold sightings
  constructor
  · intro h
    obtain ⟨d, hd, rfl⟩ := List.mem_map.1 h
    obtain ⟨hmem, hplace⟩ := List.mem_filter.1 hd
    obtain rfl := List.mem_singleton.1 hmem
    exact ⟨of_decide_eq_true hplace, rfl⟩
  · rintro ⟨hplace, rfl⟩
    exact List.mem_map.2 ⟨(a, k), List.mem_filter.2 ⟨List.mem_cons_self, decide_eq_true hplace⟩, rfl⟩

/-- A contact that has an entry is renewed, and nothing else happens. -/
theorem observe_known {a : UInt32} {k : KademliaKey} (he : n.observe a k = some p)
    (hknown : ∀ i, ∀ x ∈ sightings n i [(a, k)], x.key ∈ (n.buckets i).map (·.key)) :
    p.2 = [] ∧ ∀ i, p.1.buckets i = (sightings n i [(a, k)]).foldl (Recency.renew (·.key)) (n.buckets i) := by
  have hentry : ∀ i : Fin keyLenBits, longestMatchingPrefix n.key k = i → ¬ ∀ e ∈ n.buckets i, e.key ≠ k := by
    intro i hi hnone
    obtain ⟨e, he, hk⟩ := List.mem_map.1 (hknown i _ (mem_sightings_singleton.2 ⟨hi, rfl⟩))
    exact hnone e he hk
  refine ⟨?_, fun i => ?_⟩
  · rcases observe_cases he with ⟨-, rfl⟩ | ⟨i, hi, ⟨_, _, _, -, -, -, rfl⟩ | ⟨hnone, -, -⟩ | ⟨hnone, -, -⟩⟩
    · rfl
    · rfl
    · exact absurd hnone (hentry i hi)
    · exact absurd hnone (hentry i hi)
  · rw [observe_buckets he i]
    by_cases hi : longestMatchingPrefix n.key k = i
    · have hone : sightings n i [(a, k)] = [⟨k, a, n.epoch⟩] := by simp [sightings, hi]
      have hmem := hknown i _ (mem_sightings_singleton.2 ⟨hi, rfl⟩)
      rw [hone, List.foldl_cons, List.foldl_nil, List.foldl_cons, List.foldl_nil, Recency.use,
        if_pos (Recency.mem_map_iff_any.2 hmem)]
    · have hnone : sightings n i [(a, k)] = [] := by simp [sightings, hi]
      rw [hnone]
      rfl

/-- A contact that has no entry makes one, or makes the node ping. -/
theorem observe_unknown {a : UInt32} {k : KademliaKey} {i : Fin keyLenBits} (he : n.observe a k = some p)
    (hi : longestMatchingPrefix n.key k = i) (hnone : k ∉ (n.buckets i).map (·.key)) :
    (∃ x ∈ p.2, asks x = true) ∨ (n.buckets i).length < (p.1.buckets i).length := by
  rcases observe_cases he with ⟨hself, -⟩ | ⟨j, hj, hcases⟩
  · rw [hself, longestMatchingPrefix_self] at hi
    exact absurd hi (Nat.ne_of_gt i.2)
  · obtain rfl : j = i := Fin.ext (hj.symm.trans hi)
    rcases hcases with ⟨l₁, old, l₂, hb, hk, -, -⟩ | ⟨-, -, rfl⟩ | ⟨-, -, lrs, rest, -, rfl⟩
    · refine absurd ?_ hnone
      rw [hb]
      exact List.mem_map.2 ⟨old, by simp, hk⟩
    · right
      rw [buckets_setBucket_self, List.length_append]
      exact Nat.lt_succ_self _
    · exact Or.inl ⟨_, List.mem_cons_self, rfl⟩

/-- A step of a calm handling: it stays calm, or gets loud because of a contact that has no entry. -/
theorem calm_exec (hlive : n₀.dead = false) (h : Calm Γ n₀ tr₀ cs ⟨n, c :: rest, tr⟩) (he : exec Γ ch c n = some p) :
    Calm Γ n₀ tr₀ cs ⟨p.1, p.2 ++ rest, (c, ch) :: tr⟩ ∨
      Loud n₀ tr₀ ⟨p.1, p.2 ++ rest, (c, ch) :: tr⟩ ∧ Unknown n₀ cs := by
  obtain ⟨seen, hcs, hseen⟩ := h.shown
  have hsame : n = { n₀ with buckets := n.buckets } := h.same
  have hq := h.quiet c List.mem_cons_self
  have hrest : ∀ x ∈ rest, Quiet x := fun x hx => h.quiet x (List.mem_cons_of_mem _ hx)
  cases c with
  | handleFindNodes m fm =>
    left
    cases he
    have hreq : fm.request = false := hq
    have hcalls : n.handleFindNodes Γ m fm = fm.nearest.map (fun e => .observe e.address e.key) := by
      rw [KademliaNode.handleFindNodes, hreq]
      rfl
    refine ⟨fun x hx => ?_, hsame, h.sent, seen, ?_, hseen⟩
    · rw [hcalls] at hx
      rcases List.mem_append.1 hx with hx | hx
      · obtain ⟨e, -, rfl⟩ := List.mem_map.1 hx
        trivial
      · exact hrest x hx
    · rw [← hcs, hcalls, List.flatMap_append, List.flatMap_cons, List.flatMap_map, shows, hreq, List.map_eq_flatMap]
      rfl
  | observe a k =>
    have hsight : ∀ i l, sightings n i l = sightings n₀ i l := by
      intro i l
      have hkey : n.key = n₀.key := by rw [hsame]
      have hepoch : n.epoch = n₀.epoch := by rw [hsame]
      rw [sightings, sightings, hkey, hepoch]
    have hkeys : ∀ i k, k ∈ (n.buckets i).map (·.key) ↔ k ∈ (n₀.buckets i).map (·.key) := by
      intro i k
      have hb : n.buckets i = (sightings n₀ i seen).foldl (Recency.renew (·.key)) (n₀.buckets i) := (hseen i).2
      rw [hb]
      exact (Recency.foldl_renew_keys (hseen i).1).2 k
    by_cases hknown : ∀ i, ∀ x ∈ sightings n₀ i [(a, k)], x.key ∈ (n₀.buckets i).map (·.key)
    · left
      obtain ⟨hnil, hb⟩ := observe_known he (fun i x hx => (hkeys i _).2 (hknown i x (hsight i _ ▸ hx)))
      rw [hnil]
      refine ⟨hrest, (observe_eq he).trans (congrArg (fun n => { n with buckets := p.1.buckets }) hsame), h.sent,
        seen ++ [(a, k)], (List.append_assoc _ _ _).trans hcs, fun i => ⟨fun x hx => ?_, ?_⟩⟩
      · rw [sightings_append] at hx
        rcases List.mem_append.1 hx with hx | hx
        · exact (hseen i).1 x hx
        · exact hknown i x hx
      · have hbefore : n.buckets i = (sightings n₀ i seen).foldl (Recency.renew (·.key)) (n₀.buckets i) := (hseen i).2
        rw [sightings_append, List.foldl_append, ← hbefore, ← hsight i [(a, k)]]
        exact hb i
    · right
      push Not at hknown
      obtain ⟨i, x, hx, hnone⟩ := hknown
      obtain ⟨hi, rfl⟩ := mem_sightings_singleton.1 hx
      have hi : longestMatchingPrefix n.key k = i := by rw [hsame]; exact hi
      obtain ⟨hwaiters, hlen, hlive⟩ := h.loud hlive
      have hgrows := grows_exec he (h.tame _ List.mem_cons_self) hlive
      have hcontact : (⟨k, a, n₀.epoch⟩ : BucketEntry) ∈ sightings n₀ i cs := by
        rw [← hcs, sightings_append, List.flatMap_cons, shows, sightings_append]
        exact List.mem_append_right _ (List.mem_append_left _ hx)
      refine ⟨⟨hgrows.live, fun y hy => ?_, (congrArg List.length h.sent).ge, fun b => (hwaiters b).trans (hgrows.waiters b),
        fun j => (hlen j).ge.trans (hgrows.buckets j), ?_⟩, i, _, hcontact, hnone⟩
      · rcases List.mem_append.1 hy with hy | hy
        · exact hgrows.tame y hy
        · exact h.tame y (List.mem_cons_of_mem _ hy)
      · rcases observe_unknown he hi (fun hmem => hnone ((hkeys i k).1 hmem)) with ⟨y, hy, hasks⟩ | hmore
        · exact Or.inl ⟨y, List.mem_append_left _ hy, hasks⟩
        · exact Or.inr (Or.inr (Or.inr ⟨i, (hlen i).ge.trans_lt hmore⟩))
  | _ => exact absurd hq not_false

/-! ## The handling -/

theorem dispatch_tame (n : KademliaNode) : ∀ x ∈ n.dispatch Γ ch msg, Tame x := by
  intro x hx
  have hmakes := dispatch_makes (Γ := Γ) (n := n) msg x hx
  cases hmakes <;> trivial

/-- A message that asks for a reply is on its way to get one. -/
theorem dispatch_asks (n : KademliaNode) (h : asksReply Γ ch msg = true) : ∃ x ∈ n.dispatch Γ ch msg, asks x = true := by
  unfold asksReply at h
  unfold KademliaNode.dispatch
  split at h
  · rename_i ht
    have hping : (Γ.ping.read msg.data (PingMessage.ping KademliaKey.zero)).pingOrPong = true := h
    simp only [ht, hping, if_true]
    exact ⟨_, List.mem_cons_of_mem _ List.mem_cons_self, rfl⟩
  · rename_i ht
    obtain ⟨hlen, hreq⟩ := Bool.and_eq_true_iff.1 h
    have hlen : ¬ msg.data.length < 1 + keyLen + 4 := by simpa using hlen
    simp only [ht, hlen, if_false]
    exact ⟨_, List.mem_cons_of_mem _ List.mem_cons_self, hreq⟩
  · rename_i ht
    have hreq : (Γ.store.read msg.data (StoreMessage.unset ch)).request = true := h
    simp only [ht, hreq, if_true]
    exact ⟨_, List.mem_cons_of_mem _ List.mem_cons_self, rfl⟩
  · cases h

/-- A message that asks for no reply shows its contacts. -/
theorem dispatch_quiet (n : KademliaNode) (h : asksReply Γ ch msg = false) :
    (∀ x ∈ n.dispatch Γ ch msg, Quiet x) ∧ (n.dispatch Γ ch msg).flatMap (shows Γ) = contactsRead Γ ch msg := by
  unfold asksReply at h
  unfold KademliaNode.dispatch contactsRead
  split at h
  · rename_i ht
    have hping : (Γ.ping.read msg.data (PingMessage.ping KademliaKey.zero)).pingOrPong = false := h
    simp only [ht, hping, Bool.false_eq_true, if_false]
    exact ⟨by simp [Quiet], rfl⟩
  · rename_i ht
    simp only [ht]
    by_cases hlen : msg.data.length < 1 + keyLen + 4
    · simp only [if_pos hlen]
      exact ⟨by simp, rfl⟩
    · have hreq : (readFindNodes Γ ch msg).request = false := by simpa [hlen] using h
      simp only [if_neg hlen, hreq, Bool.false_eq_true, if_false]
      have hshows : shows Γ (.handleFindNodes msg (readFindNodes Γ ch msg)) =
          (readFindNodes Γ ch msg).nearest.map (fun e => (e.address, e.key)) := by
        rw [shows, hreq]
        rfl
      refine ⟨fun x hx => ?_, ?_⟩
      · rcases List.mem_pair.1 hx with rfl | rfl
        · trivial
        · exact hreq
      · exact congrArg _ ((List.append_nil _).trans hshows)
  · rename_i ht
    have hreq : (Γ.store.read msg.data (StoreMessage.unset ch)).request = false := h
    simp only [ht, hreq, Bool.false_eq_true, if_false]
    exact ⟨by simp [Quiet], rfl⟩
  · split <;> simp_all

/-- After the `switch`, the rest of a handling is calm, or loud for one of the two reasons. -/
theorem calm_or_loud (tr₀ : NodeTrace) (hlive : n₀.dead = false)
    (h : Run (nodeProgram Γ) (fun m _ => m.stack ≠ []) ⟨n₀, n₀.dispatch Γ ch msg ++ [], tr⟩ m')
    (htr : tr.flatMap (fun e => e.1.handsOver) = tr₀.flatMap (fun e => e.1.handsOver)) :
    asksReply Γ ch msg = false ∧ Calm Γ n₀ tr₀ (contactsRead Γ ch msg) m' ∨
      Loud n₀ tr₀ m' ∧ (asksReply Γ ch msg = true ∨ Unknown n₀ (contactsRead Γ ch msg)) := by
  refine h.invariant (I := fun m => asksReply Γ ch msg = false ∧ Calm Γ n₀ tr₀ (contactsRead Γ ch msg) m ∨
    Loud n₀ tr₀ m ∧ (asksReply Γ ch msg = true ∨ Unknown n₀ (contactsRead Γ ch msg))) ?_ ?_
  · rw [List.append_nil]
    cases hasks : asksReply Γ ch msg with
    | true =>
      exact Or.inr ⟨⟨hlive, dispatch_tame n₀, (congrArg List.length htr).ge, fun a => Nat.le_refl _, fun i => Nat.le_refl _,
        Or.inl (dispatch_asks n₀ hasks)⟩, Or.inl rfl⟩
    | false =>
      obtain ⟨hquiet, hshows⟩ := dispatch_quiet n₀ hasks
      exact Or.inl ⟨rfl, hquiet, rfl, htr, [], hshows, fun i => ⟨fun x hx => (List.not_mem_nil hx).elim, rfl⟩⟩
  · intro m l m' _ hI hok hs
    cases hs with
    | run hw he =>
      rcases hI with ⟨hasks, hcalm⟩ | ⟨hloud, hwhy⟩
      · rcases calm_exec hlive hcalm he with hcalm | ⟨hloud, hunknown⟩
        · exact Or.inl ⟨hasks, hcalm⟩
        · exact Or.inr ⟨hloud, Or.inr hunknown⟩
      · exact Or.inr ⟨loud_exec hloud he, hwhy⟩
    | event => exact absurd rfl hok
    | @reentry c f rest n tr hf | @leave f rest n tr hf =>
      have htame : Tame f := by
        rcases hI with ⟨-, hcalm⟩ | ⟨hloud, -⟩
        · exact hcalm.tame f List.mem_cons_self
        · exact hloud.tame f List.mem_cons_self
      cases f with
      | userCode => exact absurd htame not_false
      | _ => cases hf

/-- A handling that was calm to its end left the node alone if the contacts repeated the ends of their buckets. -/
theorem leftAlone_iff_of_calm (h : Calm Γ m.state m.trace cs m') (hidle : m'.stack = []) :
    LeftAlone m m' ↔ ∀ i, Recency.Current (·.key) (m.state.buckets i) (sightings m.state i cs) := by
  obtain ⟨seen, hcs, hseen⟩ := h.shown
  rw [hidle, List.flatMap_nil, List.append_nil] at hcs
  subst hcs
  constructor
  · rintro ⟨hbuckets, -⟩ i
    rw [← Recency.foldl_renew_eq_self_iff (hseen i).1, ← (hseen i).2, hbuckets]
  · intro hcurrent
    have hbuckets : m'.state.buckets = m.state.buckets := by
      funext i
      rw [(hseen i).2]
      exact (Recency.foldl_renew_eq_self_iff (hseen i).1).2 (hcurrent i)
    have hsame : m'.state = m.state := by
      rw [h.same, hbuckets]
    exact ⟨hbuckets, by rw [hsame], by rw [hsame], by rw [hsame], h.sent⟩

end MalformedAux

open MalformedAux

/-- A live node handles a message that no record waits for, decodable or not: it is left alone, without a reply, exactly when
the message, as far as it was read, asks for no reply and shows contacts that repeat the ends of their buckets. -/
theorem malformed {Γ : Ctx} {msg : Message UInt32} {m m' : NodeConfig} (hlive : m.state.dead = false)
    (hnone : m.state.callbacks.find? msg.tag = none) (h : Handled Γ msg m m') :
    ∃ ch new, m'.trace = new ++ m.trace ∧ (.dispatch msg, ch) ∈ new ∧ (LeftAlone m m' ↔ Harmless Γ ch m.state msg) := by
  obtain ⟨hr, hidle⟩ := h
  have hne : ∀ c rest, m'.stack ≠ c :: rest := by
    intro c rest
    rw [hidle]
    exact List.cons_ne_nil _ _ ∘ Eq.symm
  obtain ⟨ch₁, p₁, he₁, hr⟩ := hr.head_run rfl (hne _ _)
  cases he₁
  obtain ⟨ch₂, p₂, he₂, hr⟩ := hr.head_run rfl (hne _ _)
  simp only [nodeProgram, exec, execBase, BaseApplication.exec, hnone] at he₂
  cases he₂
  obtain ⟨ch, p₃, he₃, hr⟩ := hr.head_run rfl (hne _ _)
  cases he₃
  obtain ⟨new, hnew⟩ := hr.trace_suffix
  refine ⟨ch, new ++ [(.dispatch msg, ch), (.base (.receive msg), ch₂), (.base (.handleMessage msg), ch₁)], ?_, ?_, ?_⟩
  · rw [← hnew, List.append_assoc]
    rfl
  · exact List.mem_append_right _ List.mem_cons_self
  · rcases calm_or_loud m.trace hlive hr rfl with ⟨hasks, hcalm⟩ | ⟨hloud, hwhy⟩
    · rw [leftAlone_iff_of_calm hcalm hidle, Harmless]
      exact ⟨fun h => ⟨hasks, h⟩, fun h => h.2⟩
    · refine ⟨fun h => absurd h (not_leftAlone_of_loud hloud hidle), ?_⟩
      rintro ⟨hasks, hcurrent⟩
      rcases hwhy with hwhy | ⟨i, x, hx, hout⟩
      · rw [hasks] at hwhy
        cases hwhy
      · exact absurd ((hcurrent i).1 x hx) hout

/-- A message without a payload. -/
def emptyMessage (type : MessageType) : Message UInt32 := ⟨type.code, 5, 0, 7, []⟩

theorem exists_handled (Γ : Ctx) (msg : Message UInt32) (m : NodeConfig) (ls : List NodeLabel) (q : NodeConfig → Bool)
    (h : (follow (nodeProgram Γ) (fun m _ => !m.stack.isEmpty) ⟨m.state, [.base (.handleMessage msg)], m.trace⟩ ls).any
      (fun m' => m'.stack.isEmpty && q m') = true) : ∃ m', Handled Γ msg m m' ∧ q m' = true := by
  obtain ⟨m', hr, hm'⟩ := exists_run_of_follow _ _ _ _ _ h
  obtain ⟨hidle, hq⟩ := Bool.and_eq_true_iff.1 hm'
  refine ⟨m', ⟨hr.mono (fun m l hok hnil => ?_), List.isEmpty_iff.1 hidle⟩, hq⟩
  rw [hnil] at hok
  cases hok

/-- A `FIND_NODES` message of thirty bytes that are in no format. -/
def garbage : Message UInt32 := ⟨MessageType.findNodes.code, 5, 0, 7, List.replicate 30 0xff⟩

/-- The node has two contacts, and the sender of the message is one of them, under the key zero, seen in this epoch. -/
theorem malformed_sample : ∃ m m', Run (nodeProgram .reference) anyStep (sampleNode (.starting 1)) m ∧
    m.state.buckets ⟨7, by decide⟩ = [⟨.zero, 5, 0⟩] ∧ m.state.buckets ⟨0, by decide⟩ = [⟨.starting 0x80, 6, 0⟩] ∧
    (∀ fm, garbage.data ≠ Ctx.reference.findNodes.write fm) ∧ Handled .reference garbage m m' ∧ LeftAlone m m' := by
  obtain ⟨m, hr, hm⟩ := exists_run_of_follow (nodeProgram .reference) (fun _ _ => true) (sampleNode (.starting 1))
    ([.enter (.observe 5 .zero)] ++ runs 1 1 ++ [.enter (.observe 6 (.starting 0x80))] ++ runs 2 1)
    (fun m => decide (m.state.dead = false ∧ m.state.callbacks.find? garbage.tag = none ∧
      m.state.buckets ⟨7, by decide⟩ = [⟨.zero, 5, 0⟩] ∧ m.state.buckets ⟨0, by decide⟩ = [⟨.starting 0x80, 6, 0⟩]) &&
        (follow (nodeProgram .reference) (fun m _ => !m.stack.isEmpty) ⟨m.state, [.base (.handleMessage garbage)], m.trace⟩
          (runs 1 5)).any (fun m' : NodeConfig => m'.stack.isEmpty &&
            m'.trace.all (fun e => decide (e.1 = .dispatch garbage → Harmless .reference e.2 m.state garbage))))
    (by decide +kernel)
  obtain ⟨hm, hafter⟩ := Bool.and_eq_true_iff.1 hm
  obtain ⟨hlive, hnone, hzero, hother⟩ := of_decide_eq_true hm
  obtain ⟨m', hm', hharmless⟩ := exists_handled .reference garbage m (runs 1 5) _ hafter
  obtain ⟨ch, new, htrace, hmem, hiff⟩ := malformed hlive hnone hm'
  have hread : ∀ fm, Ctx.reference.findNodes.read garbage.data fm = fm := fun fm => rfl
  have hformat : ∀ fm, garbage.data ≠ Ctx.reference.findNodes.write fm := by
    intro fm h
    have hfm := Ctx.reference_decodes.findNodes fm { fm with request := !fm.request }
    rw [← h, hread] at hfm
    exact absurd (congrArg FindNodesMessage.request hfm) (by simp)
  refine ⟨m, m', run_anyStep hr, hzero, hother, hformat, hm', hiff.2 ?_⟩
  exact of_decide_eq_true (List.all_eq_true.1 hharmless _ (htrace ▸ List.mem_append_left _ hmem)) rfl

/-- A ping that does not decode: nothing of it is read, and the node observes the sender under the key zero and answers. -/
theorem malformed_false : ∃ m',
    (∀ pm, (emptyMessage .ping).data ≠ Ctx.reference.ping.write pm) ∧
    (∀ pm, Ctx.reference.ping.read (emptyMessage .ping).data pm = pm) ∧ (sampleNode (.starting 1)).state.dead = false ∧
    (sampleNode (.starting 1)).state.callbacks.find? (emptyMessage .ping).tag = none ∧
    Handled .reference (emptyMessage .ping) (sampleNode (.starting 1)) m' ∧
    m'.state.buckets ⟨7, by decide⟩ = [⟨.zero, 5, 0⟩] ∧ m'.state.outqueue.map (·.destination) = [5] := by
  obtain ⟨m', hm', hq⟩ := exists_handled .reference (emptyMessage .ping) (sampleNode (.starting 1)) (runs 1 5)
    (fun m' => decide (m'.state.buckets ⟨7, by decide⟩ = [⟨.zero, 5, 0⟩]) &&
      decide (m'.state.outqueue.map (·.destination) = [5])) (by decide +kernel)
  obtain ⟨hbucket, hreply⟩ := Bool.and_eq_true_iff.1 hq
  exact ⟨m', fun pm h => (List.cons_ne_nil _ _ h.symm).elim, fun pm => rfl, rfl, rfl, hm', of_decide_eq_true hbucket,
    of_decide_eq_true hreply⟩

end Dhtsim
