import Dhtsim.Lemmas.Requests
import Dhtsim.Theorems.Placement

/-!
# Eviction

When the bucket of a newly seen contact is full, `updateOrAddToBucket` pings the oldest entry and leaves `cbFail` to run when
the ping fails. By then `cb_failure` of `ping` has called `unobserve`, and anything else may have happened to the bucket:
`cbFail` erases whatever entry is first, and appends the captured one whether or not its key is there already. So keys need
not be unique, and contacts get lost (`keys_unique_false`, `loyalty_false`). In the runs whose evictions do no harm, and for the
contacts whose failures do none either, keys are unique and no contact is lost.
-/

namespace Dhtsim

open CallMachine KademliaNode

/-- The keys in the buckets, bucket by bucket. -/
def KademliaNode.storedKeys (n : KademliaNode) : List KademliaKey :=
  ((List.finRange keyLenBits).flatMap n.buckets).map (·.key)

/-- A step that evicts adds a key that the rest of the bucket does not have. -/
def addsNewKey (m : NodeConfig) (l : NodeLabel) : Bool :=
  match l, m.stack with
  | .run _, .pinged _ (.evict i e) :: _ => (m.state.buckets i).tail.all (fun e' => e'.key ≠ e.key)
  | _, _ => true

/-- A call by which a ping or a `FIND_NODES` request to the address fails. A live node's request fails when it has run out of
retries. -/
def Call.failsAt (a : UInt32) : Call → Bool
  | .base (.callback false _ msg) =>
    decide (msg.destination = a) && (msg.type = MessageType.ping.code || msg.type = MessageType.findNodes.code)
  | _ => false

/-- A request to the address ran out of retries between `m₀` and `m`. -/
def ranOutSince (m₀ m : NodeConfig) (a : UInt32) : Bool :=
  (since m₀ m).any (fun c => c.1.failsAt a)

/-- Every contact of `m₀` is in its bucket in `m`, or an entry with its key is, unless a request to the address it had in `m₀`
ran out of retries since. -/
def Loyal (m₀ m : NodeConfig) : Prop :=
  ∀ i, ∀ e ∈ m₀.state.buckets i, e.key ∈ (m.state.buckets i).map (·.key) ∨ ranOutSince m₀ m e.address = true

instance (m₀ m : NodeConfig) : Decidable (Loyal m₀ m) :=
  inferInstanceAs (Decidable (∀ i, ∀ e ∈ m₀.state.buckets i, _ ∨ _))

/-- The entry can go when only `rest` stays of bucket `i`: its key stays, or it is no contact of `m₀` but of those at an address
that is `gone`. -/
def canGo (m₀ : NodeConfig) (gone : UInt32 → Bool) (i : Fin keyLenBits) (rest : List BucketEntry) (x : BucketEntry) : Bool :=
  rest.any (fun e => e.key = x.key) || (m₀.state.buckets i).all (fun e => e.key ≠ x.key || gone e.address)

/-- What a step throws out of the buckets can go, as seen from `m₀`: the first entry of its bucket when the step evicts, and the
entries that have the address of the message by now when a request fails. -/
def spares (m₀ m : NodeConfig) (l : NodeLabel) : Bool :=
  match l, m.stack with
  | .run _, .pinged _ (.evict i e) :: _ =>
    match m.state.buckets i with
    | [] => true
    | oldest :: rest => canGo m₀ (ranOutSince m₀ m) i (rest ++ [e]) oldest
  | .run _, .base (.callback false _ msg) :: _ =>
    (List.finRange keyLenBits).all (fun i => (m.state.buckets i).all (fun x =>
      x.address ≠ msg.destination || canGo m₀ (fun a => a = msg.destination || ranOutSince m₀ m a) i
        ((m.state.buckets i).filter (fun e => e.address ≠ msg.destination)) x))
  | _, _ => true

namespace EvictionAux

variable {Γ : Ctx} {config : Config} {key : KademliaKey} {offset : Time} {m m' : NodeConfig} {l : NodeLabel}

/-- Keys are unique in the whole table when they are in each bucket: entries of different buckets have different keys. -/
theorem storedKeys_nodup_iff {n : KademliaNode} (hw : WellPlaced n) :
    n.storedKeys.Nodup ↔ ∀ i, ((n.buckets i).map (·.key)).Nodup := by
  have hdisjoint : (List.finRange keyLenBits).Pairwise
      (fun i j => List.Disjoint ((n.buckets i).map (·.key)) ((n.buckets j).map (·.key))) := by
    refine (List.nodup_finRange _).imp ?_
    intro i j hij k hi hj
    obtain ⟨e, he, rfl⟩ := List.mem_map.1 hi
    obtain ⟨e', he', hk⟩ := List.mem_map.1 hj
    have hplace := hw.place i e he
    have hplace' := hw.place j e' he'
    rw [hk, hplace] at hplace'
    exact hij (Fin.ext hplace')
  unfold storedKeys
  rw [List.map_flatMap, List.nodup_flatMap]
  exact ⟨fun h i => h.1 i (List.mem_finRange i), fun h => ⟨fun i _ => h i, hdisjoint⟩⟩

/-- A step of a well-placed node from unique keys leads to unique keys exactly when it adds a new key. -/
theorem step_keys_nodup (hw : WellPlaced m.state) (hm : ∀ i, ((m.state.buckets i).map (·.key)).Nodup)
    (hs : Step (nodeProgram Γ) m l m') :
    (∀ i, ((m'.state.buckets i).map (·.key)).Nodup) ↔ addsNewKey m l = true := by
  cases hs with
  | @run ch c rest n tr n' cs hwait he =>
    by_cases hc : ∃ ok i e, c = .pinged ok (.evict i e)
    · obtain ⟨ok, i, e, rfl⟩ := hc
      obtain ⟨n₁, hevict, hp⟩ := Option.map_eq_some_iff.1 he
      cases hp
      obtain ⟨oldest, tl, hb, rfl⟩ := evict_cases hevict
      have htl : (tl.map (·.key)).Nodup := by
        have := hm i
        simp only [hb, List.map_cons] at this
        exact (List.nodup_cons.1 this).2
      have hbucket : ((tl ++ [e]).map (·.key)).Nodup ↔ ∀ e' ∈ tl, e'.key ≠ e.key := by
        rw [List.map_append, List.nodup_append]
        simp [htl]
      simp only [addsNewKey, hb, List.tail_cons, List.all_eq_true, decide_eq_true_eq]
      rw [← hbucket]
      refine ⟨fun h => ?_, fun h => setBucket_forall (P := fun _ l => (l.map (·.key)).Nodup) hm h⟩
      have := h i
      rwa [buckets_setBucket_self] at this
    · have hadds : addsNewKey ⟨n, c :: rest, tr⟩ (.run ch) = true := by
        unfold addsNewKey
        split
        · rename_i heq
          cases heq
          exact absurd ⟨_, _, _, rfl⟩ hc
        · rfl
      refine ⟨fun _ => hadds, fun _ => ?_⟩
      refine exec_buckets_forall (P := fun _ l => (l.map (·.key)).Nodup) he hm
        (fun i l l' hl h => (hl.map BucketEntry.key).nodup h) ?_ ?_ ?_
      · rintro a k i l₁ old l₂ - - hk hl
        have hperm : (l₁ ++ old :: l₂).map (·.key) |>.Perm ((l₁ ++ l₂ ++ [(⟨k, a, n.epoch⟩ : BucketEntry)]).map (·.key)) := by
          simp only [List.map_append, List.map_cons, List.map_nil, hk]
          exact List.perm_middle.trans (List.perm_append_singleton _ _).symm
        exact hperm.nodup_iff.1 hl
      · rintro a k i l - - hne - hl
        simp only [List.map_append, List.map_cons, List.map_nil]
        refine hl.append (List.nodup_singleton k) ?_
        intro x hx hk
        obtain ⟨e, he, rfl⟩ := List.mem_map.1 hx
        exact hne e he (List.mem_singleton.1 hk)
      · intro ok i e hd tl hcall
        exact absurd ⟨ok, i, e, hcall⟩ hc
  | event hc => exact ⟨fun _ => rfl, fun _ => hm⟩
  | reentry hf hc => exact ⟨fun _ => rfl, fun _ => hm⟩
  | leave hf => exact ⟨fun _ => rfl, fun _ => hm⟩

/-- What ran out before a step that runs a call has run out after it. -/
theorem ranOutSince_run {m₀ : NodeConfig} {n n' : KademliaNode} {c : Call} {cs rest : List Call} {tr : NodeTrace} {ch : Choice}
    (hsuffix : m₀.trace <:+ tr) (a : UInt32) :
    ranOutSince m₀ ⟨n', cs ++ rest, (c, ch) :: tr⟩ a = (c.failsAt a || ranOutSince m₀ ⟨n, c :: rest, tr⟩ a) := by
  unfold ranOutSince
  rw [since_cons (s := n) (l := c :: rest) hsuffix, List.any_cons]

@[simp] theorem ranOutSince_self (m : NodeConfig) (a : UInt32) : ranOutSince m m a = false := by
  simp [ranOutSince]

/-- No contact is lost yet where the event begins. -/
theorem loyal_self (m : NodeConfig) : Loyal m m := fun _ _ he => Or.inl (List.mem_map_of_mem he)

/-- The keys of the contacts stay where no key leaves a bucket. -/
theorem loyal_of_keys {m₀ : NodeConfig} (hm : Loyal m₀ m)
    (hkeys : ∀ i, ∀ e ∈ m.state.buckets i, e.key ∈ (m'.state.buckets i).map (·.key))
    (hran : ∀ a, ranOutSince m₀ m a = true → ranOutSince m₀ m' a = true) : Loyal m₀ m' := by
  intro i e he
  rcases hm i e he with hmem | hgone
  · obtain ⟨x, hx, hk⟩ := List.mem_map.1 hmem
    exact Or.inl (hk ▸ hkeys i x hx)
  · exact Or.inr (hran _ hgone)

/-- The entries that leave a bucket can go exactly when the contacts that are left are loyal. -/
theorem canGo_iff {m₀ : NodeConfig} {gone : UInt32 → Bool} {i : Fin keyLenBits} {rest : List BucketEntry} {x : BucketEntry} :
    canGo m₀ gone i rest x = true ↔
      x.key ∈ rest.map (·.key) ∨ ∀ e ∈ m₀.state.buckets i, e.key = x.key → gone e.address = true := by
  unfold canGo
  simp only [Bool.or_eq_true, List.any_eq_true, List.all_eq_true, decide_eq_true_eq, List.mem_map]
  refine or_congr Iff.rfl (forall₂_congr fun e _ => ?_)
  rw [ne_eq, or_iff_not_imp_left, not_not]

/-- An observation keeps the key of every entry. -/
theorem keys_of_observe {n : KademliaNode} {a : UInt32} {k : KademliaKey} {p : KademliaNode × List Call}
    (h : n.observe a k = some p) : ∀ i, ∀ e ∈ n.buckets i, e.key ∈ (p.1.buckets i).map (·.key) := by
  intro i e he
  rcases observe_cases h with
    ⟨-, rfl⟩ | ⟨j, -, ⟨l₁, old, l₂, hb, hk, -, rfl⟩ | ⟨-, -, rfl⟩ | ⟨-, -, _, _, -, rfl⟩⟩
  · exact List.mem_map_of_mem he
  · by_cases hij : i = j
    · subst hij
      rw [hb, List.mem_append, List.mem_cons] at he
      rw [buckets_setBucket_self, List.map_append, List.map_append, List.map_singleton]
      rcases he with he | rfl | he
      · exact List.mem_append_left _ (List.mem_append_left _ (List.mem_map_of_mem he))
      · exact List.mem_append_right _ (List.mem_singleton.2 hk)
      · exact List.mem_append_left _ (List.mem_append_right _ (List.mem_map_of_mem he))
    · rw [buckets_setBucket_of_ne n _ hij]
      exact List.mem_map_of_mem he
  · by_cases hij : i = j
    · subst hij
      rw [buckets_setBucket_self, List.map_append]
      exact List.mem_append_left _ (List.mem_map_of_mem he)
    · rw [buckets_setBucket_of_ne n _ hij]
      exact List.mem_map_of_mem he
  · exact List.mem_map_of_mem he

/-- An eviction is loyal exactly when the entry it erases can go. -/
theorem loyal_of_evict_iff {m₀ : NodeConfig} {n : KademliaNode} {ok : Bool} {i : Fin keyLenBits} {e oldest : BucketEntry}
    {tl rest : List Call} {es : List BucketEntry} {ch : Choice} {tr : NodeTrace} (hsuffix : m₀.trace <:+ tr)
    (hb : n.buckets i = oldest :: es) (hm : Loyal m₀ ⟨n, .pinged ok (.evict i e) :: rest, tr⟩) :
    Loyal m₀ ⟨n.setBucket i (es ++ [e]), tl ++ rest, (.pinged ok (.evict i e), ch) :: tr⟩ ↔
      spares m₀ ⟨n, .pinged ok (.evict i e) :: rest, tr⟩ (.run ch) = true := by
  have hran : ranOutSince m₀ ⟨n.setBucket i (es ++ [e]), tl ++ rest, (.pinged ok (.evict i e), ch) :: tr⟩ =
      ranOutSince m₀ ⟨n, .pinged ok (.evict i e) :: rest, tr⟩ :=
    funext fun a => ranOutSince_run hsuffix a
  have hspares : spares m₀ ⟨n, .pinged ok (.evict i e) :: rest, tr⟩ (.run ch) =
      canGo m₀ (ranOutSince m₀ ⟨n, .pinged ok (.evict i e) :: rest, tr⟩) i (es ++ [e]) oldest := by
    simp only [spares, hb]
  rw [hspares, canGo_iff]
  constructor
  · intro hloyal
    by_cases hkey : oldest.key ∈ (es ++ [e]).map (·.key)
    · exact Or.inl hkey
    · refine Or.inr (fun x hx hk => ?_)
      rcases hloyal i x hx with hmem | hgone
      · rw [hk, buckets_setBucket_self] at hmem
        exact absurd hmem hkey
      · rwa [hran] at hgone
  · intro hgo j x hx
    rw [hran]
    rcases hm j x hx with hmem | hgone
    · by_cases hji : j = i
      · subst hji
        rw [buckets_setBucket_self]
        simp only [hb, List.map_cons, List.mem_cons] at hmem
        rcases hmem with hk | hmem
        · rcases hgo with hkey | hall
          · exact Or.inl (hk ▸ hkey)
          · exact Or.inr (hall x hx hk)
        · rw [List.map_append]
          exact Or.inl (List.mem_append_left _ hmem)
      · rw [buckets_setBucket_of_ne n _ hji]
        exact Or.inl hmem
    · exact Or.inr hgone

/-- What can go when a request fails: the entries with the address of the message. -/
theorem spares_failure_iff {m₀ : NodeConfig} {n : KademliaNode} {fn : SendFn} {msg : Message UInt32} {rest : List Call}
    {ch : Choice} {tr : NodeTrace} :
    spares m₀ ⟨n, .base (.callback false fn msg) :: rest, tr⟩ (.run ch) = true ↔
      ∀ i, ∀ x ∈ n.buckets i, x.address = msg.destination →
        x.key ∈ ((n.unobserve msg.destination).buckets i).map (·.key) ∨ ∀ e ∈ m₀.state.buckets i, e.key = x.key →
          e.address = msg.destination ∨ ranOutSince m₀ ⟨n, .base (.callback false fn msg) :: rest, tr⟩ e.address = true := by
  unfold spares
  dsimp only
  rw [List.all_eq_true]
  refine ⟨fun h i x hx ha => ?_, fun h i _ => List.all_eq_true.2 fun x hx => ?_⟩
  · have hgo := List.all_eq_true.1 (h i (List.mem_finRange i)) x hx
    simpa only [ha, ne_eq, not_true_eq_false, decide_false, Bool.false_or, canGo_iff, Bool.or_eq_true, decide_eq_true_eq,
      unobserve] using hgo
  · by_cases ha : x.address = msg.destination
    · have hgo := h i x hx ha
      simpa only [ha, ne_eq, not_true_eq_false, decide_false, Bool.false_or, canGo_iff, Bool.or_eq_true, decide_eq_true_eq,
        unobserve] using hgo
    · simp [ha]

/-- An entry stays when another address than its own is removed. -/
theorem mem_unobserve {n : KademliaNode} {a : UInt32} {i : Fin keyLenBits} {x : BucketEntry} (hx : x ∈ n.buckets i)
    (ha : x.address ≠ a) : x ∈ (n.unobserve a).buckets i :=
  List.mem_filter.2 ⟨hx, by simpa using ha⟩

/-- The failure of a request is loyal exactly when the entries with the address of the message can go. -/
theorem loyal_of_failure_iff {m₀ : NodeConfig} {n n' : KademliaNode} {fn : SendFn} {msg : Message UInt32}
    {cs rest : List Call} {ch : Choice} {tr : NodeTrace} (hsuffix : m₀.trace <:+ tr)
    (htype : msg.type = MessageType.ping.code ∨ msg.type = MessageType.findNodes.code)
    (hb : n'.buckets = (n.unobserve msg.destination).buckets)
    (hm : Loyal m₀ ⟨n, .base (.callback false fn msg) :: rest, tr⟩) :
    Loyal m₀ ⟨n', cs ++ rest, (.base (.callback false fn msg), ch) :: tr⟩ ↔
      spares m₀ ⟨n, .base (.callback false fn msg) :: rest, tr⟩ (.run ch) = true := by
  have hran : ∀ a, ranOutSince m₀ ⟨n', cs ++ rest, (.base (.callback false fn msg), ch) :: tr⟩ a = true ↔
      a = msg.destination ∨ ranOutSince m₀ ⟨n, .base (.callback false fn msg) :: rest, tr⟩ a = true := by
    intro a
    rw [ranOutSince_run hsuffix, Bool.or_eq_true]
    refine or_congr ?_ Iff.rfl
    simp only [Call.failsAt, Bool.and_eq_true, Bool.or_eq_true, decide_eq_true_eq]
    exact ⟨fun h => h.1.symm, fun h => ⟨h.symm, htype⟩⟩
  rw [spares_failure_iff, ← hb]
  constructor
  · intro hloyal i x hx ha
    by_cases hkey : x.key ∈ (n'.buckets i).map (·.key)
    · exact Or.inl hkey
    · refine Or.inr (fun e he hk => ?_)
      rcases hloyal i e he with hmem | hgone
      · exact absurd (hk ▸ hmem) hkey
      · exact (hran _).1 hgone
  · intro hgo i e he
    rw [hran]
    rcases hm i e he with hmem | hgone
    · obtain ⟨x, hx, hk⟩ := List.mem_map.1 hmem
      by_cases ha : x.address = msg.destination
      · rcases hgo i x hx ha with hkey | hall
        · exact Or.inl (hk ▸ hkey)
        · exact Or.inr (hall e he hk.symm)
      · rw [hb]
        exact Or.inl (List.mem_map.2 ⟨x, mem_unobserve hx ha, hk⟩)
    · exact Or.inr (Or.inr hgone)

/-- The failure of a request removes the entries with the address it was sent to. -/
theorem buckets_of_failure {n : KademliaNode} {fn : SendFn} {msg : Message UInt32} {ch : Choice}
    {p : KademliaNode × List Call} (h : exec Γ ch (.base (.callback false fn msg)) n = some p)
    (hfrom : (Call.base (.callback false fn msg)).FromRequests Γ key) :
    p.1.buckets = (n.unobserve msg.destination).buckets ∧
      (msg.type = MessageType.ping.code ∨ msg.type = MessageType.findNodes.code) := by
  rcases failure_cases hfrom with ⟨cb, rfl, htype⟩ | ⟨t, top, rfl, hdest, htype⟩
  · cases h
    exact ⟨rfl, Or.inl htype⟩
  · cases h
    refine ⟨?_, Or.inr htype⟩
    have hunobserve := congrArg KademliaNode.buckets (findFailure_eq n t top)
    rw [hdest]
    exact hunobserve

/-- A call that neither evicts nor fails keeps the key of every entry. -/
theorem exec_keys {n : KademliaNode} {c : Call} {ch : Choice} {p : KademliaNode × List Call} (h : exec Γ ch c n = some p)
    (hfrom : c.FromRequests Γ key) (hevict : ∀ ok i e, c ≠ .pinged ok (.evict i e))
    (hfail : ∀ fn msg, c ≠ .base (.callback false fn msg)) :
    ∀ i, ∀ e ∈ n.buckets i, e.key ∈ (p.1.buckets i).map (·.key) := by
  rcases exec_buckets h with
    hb | ⟨a, k, rfl⟩ | ⟨ok, a, cb, msg, rfl, -⟩ | ⟨ok, t, top, msg, rfl, -⟩ | ⟨ok, i, e, oldest, tl, rfl, -, -⟩
  · intro i e he
    exact List.mem_map_of_mem (by rw [hb]; exact he)
  · exact keys_of_observe h
  · cases ok with
    | true => rcases success_cases hfrom with ⟨_, _, h⟩ | ⟨_, _, h⟩ <;> cases h
    | false => exact absurd rfl (hfail _ _)
  · cases ok with
    | true => rcases success_cases hfrom with ⟨_, _, h⟩ | ⟨_, _, h⟩ <;> cases h
    | false => exact absurd rfl (hfail _ _)
  · exact absurd rfl (hevict _ _ _)

/-- A step of a node that is loyal to its contacts of `m₀` stays so exactly when what it throws out can go. -/
theorem step_loyal_iff {m₀ : NodeConfig} (hr₀ : Run (nodeProgram Γ) anyStep (startNode config key offset) m₀)
    (hr : Run (nodeProgram Γ) anyStep m₀ m) (hm : Loyal m₀ m) (hs : Step (nodeProgram Γ) m l m') :
    Loyal m₀ m' ↔ spares m₀ m l = true := by
  have hreq := (fromRequests_of_run (hr₀.trans hr)).2
  have hsuffix := hr.trace_suffix
  cases hs with
  | @run ch c rest n tr n' cs hwait he =>
    have hmono : ∀ a, ranOutSince m₀ ⟨n, c :: rest, tr⟩ a = true →
        ranOutSince m₀ ⟨n', cs ++ rest, (c, ch) :: tr⟩ a = true := by
      intro a ha
      rw [ranOutSince_run hsuffix, ha, Bool.or_true]
    have hfrom : c.FromRequests Γ key := hreq c List.mem_cons_self
    by_cases hevict : ∃ ok i e, c = .pinged ok (.evict i e)
    · obtain ⟨ok, i, e, rfl⟩ := hevict
      obtain ⟨n₁, hevict, hp⟩ := Option.map_eq_some_iff.1 he
      cases hp
      obtain ⟨oldest, tl, hb, rfl⟩ := evict_cases hevict
      exact loyal_of_evict_iff hsuffix hb hm
    · by_cases hfail : ∃ fn msg, c = .base (.callback false fn msg)
      · obtain ⟨fn, msg, rfl⟩ := hfail
        obtain ⟨hb, htype⟩ := buckets_of_failure he hfrom
        exact loyal_of_failure_iff hsuffix htype hb hm
      · have hspares : spares m₀ ⟨n, c :: rest, tr⟩ (.run ch) = true := by
          unfold spares
          split
          · rename_i heq
            cases heq
            exact absurd ⟨_, _, _, rfl⟩ hevict
          · rename_i heq
            cases heq
            exact absurd ⟨_, _, rfl⟩ hfail
          · rfl
        refine ⟨fun _ => hspares, fun _ => loyal_of_keys hm ?_ hmono⟩
        exact exec_keys he hfrom (fun ok i e h => hevict ⟨ok, i, e, h⟩) (fun fn msg h => hfail ⟨fn, msg, h⟩)
  | event hc => exact ⟨fun _ => rfl, fun _ => hm⟩
  | reentry hf hc => exact ⟨fun _ => rfl, fun _ => hm⟩
  | leave hf => exact ⟨fun _ => rfl, fun _ => hm⟩

/-- The failure that comes first loses no contact but those at the address. -/
theorem loyal_of_first_failure {n n' : KademliaNode} {fn : SendFn} {msg : Message UInt32} {cs rest : List Call} {ch : Choice}
    {tr : NodeTrace} (hb : n'.buckets = (n.unobserve msg.destination).buckets)
    (htype : msg.type = MessageType.ping.code ∨ msg.type = MessageType.findNodes.code) :
    Loyal ⟨n, .base (.callback false fn msg) :: rest, tr⟩ ⟨n', cs ++ rest, (.base (.callback false fn msg), ch) :: tr⟩ := by
  refine (loyal_of_failure_iff List.suffix_rfl htype hb (loyal_self _)).2 (spares_failure_iff.2 fun i x hx ha => ?_)
  by_cases hkey : x.key ∈ ((n.unobserve msg.destination).buckets i).map (·.key)
  · exact Or.inl hkey
  · refine Or.inr fun e he hk => Or.inl ?_
    by_contra hne
    exact hkey (List.mem_map.2 ⟨e, mem_unobserve he hne, hk⟩)

end EvictionAux

open EvictionAux

/-- Three contacts for a bucket of two: the first is pinged, and does not answer the first try. -/
def fullBucket : List NodeLabel :=
  [.enter (.observe 1 (.starting 0x81))] ++ runs 1 1 ++ [.enter (.observe 2 (.starting 0x82))] ++ runs 2 1 ++
    [.enter (.observe 3 (.starting 0x83))] ++ runs 3 3 ++ [.enter (.tick 2)] ++ runs 6 8

/-! ## Keys -/

/-- Key uniqueness, for the runs in which every eviction adds a key that the rest of the bucket does not have: no two entries
have the same key, and the condition is exact, as a step that breaks it leads to two entries with one key. -/
theorem keys_unique {Γ : Ctx} {config : Config} {key : KademliaKey} {offset : Time} {m : NodeConfig}
    (h : Run (nodeProgram Γ) (fun m l => addsNewKey m l = true) (startNode config key offset) m) :
    m.state.storedKeys.Nodup ∧
      ∀ l m', step (nodeProgram Γ) m l = some m' → (m'.state.storedKeys.Nodup ↔ addsNewKey m l = true) := by
  have hplaced : ∀ m', Run (nodeProgram Γ) (fun m l => addsNewKey m l = true) (startNode config key offset) m' →
      WellPlaced m'.state := fun m' h' => (wellPlaced_of_run h').1.2
  have hnodup : ∀ i, ((m.state.buckets i).map (·.key)).Nodup := by
    refine h.invariant (I := fun m => ∀ i, ((m.state.buckets i).map (·.key)).Nodup) (fun i => List.nodup_nil) ?_
    intro m₁ l m₂ hr hI hok hs
    exact (step_keys_nodup (hplaced m₁ hr) hI hs).2 hok
  refine ⟨(storedKeys_nodup_iff (hplaced m h)).2 hnodup, fun l m' hs => ?_⟩
  have hany := (run_anyStep h).step trivial hs
  rw [storedKeys_nodup_iff (wellPlaced_of_run hany).1.2]
  exact step_keys_nodup (hplaced m h) hnodup (step_of_eq_some hs)

/-- A run with an eviction that adds a new key: three contacts for a bucket of two, and the first does not answer. -/
theorem keys_unique_sample : ∃ m : NodeConfig, m.state.buckets ⟨0, by decide⟩ = [⟨.starting 0x83, 3, 0⟩] ∧ m.state.storedKeys.Nodup := by
  obtain ⟨m, hr, hm⟩ := exists_run_of_follow (nodeProgram .reference) (addsNewKey)
    (startNode ⟨2, 10000, 1000⟩ .zero 700) (fullBucket ++ (.enter (.tick 6) :: runs 14 10))
    (fun m => decide (m.state.buckets ⟨0, by decide⟩ = [⟨.starting 0x83, 3, 0⟩])) (by decide +kernel)
  exact ⟨m, by simpa using hm, (keys_unique hr).1⟩

/-- A bucket of three is full, the second contact is pinged, then a fourth contact is seen, for which the first is pinged. The
second contact times out, so that the fourth is seen again and added; then the first times out, and the fourth is added a second
time. -/
def addedTwice : List NodeLabel :=
  [.enter (.observe 1 (.starting 0x81))] ++ runs 1 1 ++ [.enter (.observe 2 (.starting 0x82))] ++ runs 2 1 ++
    [.enter (.observe 4 (.starting 0x84))] ++ runs 3 1 ++ [.enter (.ping 2 .empty)] ++ runs 4 2 ++
    [.enter (.tick 2)] ++ runs 6 8 ++ [.enter (.tick 3)] ++ runs 14 7 ++ [.enter (.observe 3 (.starting 0x83))] ++ runs 21 3 ++
    [.enter (.tick 5)] ++ runs 24 9 ++ [.enter (.tick 6)] ++ runs 33 10 ++ [.enter (.observe 3 (.starting 0x83))] ++ runs 43 1 ++
    [.enter (.tick 9)] ++ runs 44 10

/-- Two entries with one key. -/
theorem keys_unique_false : ∃ m, Run (nodeProgram .reference) (fun m l => freshTags m l = true)
    (startNode ⟨3, 10000, 1000⟩ .zero 700) m ∧ m.stack = [] ∧ m.state.dead = false ∧
    m.state.buckets ⟨0, by decide⟩ = [⟨.starting 0x83, 3, 6⟩, ⟨.starting 0x83, 3, 3⟩] ∧ ¬m.state.storedKeys.Nodup := by
  obtain ⟨m, hr, hm⟩ := exists_run_of_follow (nodeProgram .reference) (freshTags)
    (startNode ⟨3, 10000, 1000⟩ .zero 700) addedTwice
    (fun m => m.stack.isEmpty && !m.state.dead && decide (m.state.buckets ⟨0, by decide⟩ =
      [⟨.starting 0x83, 3, 6⟩, ⟨.starting 0x83, 3, 3⟩]) && !decide m.state.storedKeys.Nodup) (by decide +kernel)
  simp only [Bool.and_eq_true, List.isEmpty_iff, Bool.not_eq_true', decide_eq_true_eq, decide_eq_false_iff_not] at hm
  exact ⟨m, hr, hm.1.1.1, hm.1.1.2, hm.1.2, hm.2⟩

/-! ## Contacts -/

/-- Routing-table loyalty, from a reachable configuration `m₀` of a live node, such as one in which an event is about to come
in, on to those that steps lead to that all spare its contacts.
1. In all of them, and so at the end of the event, each contact of `m₀` is in its bucket or an entry with its key is, unless a
   request to the address it had in `m₀` ran out of retries since. The condition is exact: after one more step this is still so
   if and only if that step spares the contacts as well.
2. When the ping for a full bucket fails, and the eviction that follows spares the contacts, only contacts with the failed
   address leave the table, and the newcomer is at the end of its bucket.
3. A request of a live node fails when it is overdue and has no retries left. -/
theorem loyalty {Γ : Ctx} {config : Config} {key : KademliaKey} {offset : Time} {m₀ : NodeConfig}
    (h : Run (nodeProgram Γ) anyStep (startNode config key offset) m₀) (hlive : m₀.state.dead = false) :
    (∀ m, Run (nodeProgram Γ) (fun m l => spares m₀ m l = true) m₀ m →
      Loyal m₀ m ∧ ∀ l m', step (nodeProgram Γ) m l = some m' → (Loyal m₀ m' ↔ spares m₀ m l = true)) ∧
    (∀ a i new msg rest ch m₁ ch' m₂,
      m₀.stack = .base (.callback false (.pingFailure a (.of .drop (.evict i new))) msg) :: rest →
      step (nodeProgram Γ) m₀ (.run ch) = some m₁ → step (nodeProgram Γ) m₁ (.run ch') = some m₂ →
      spares m₀ m₁ (.run ch') = true →
        (∀ j, ∀ e ∈ m₀.state.buckets j, e.address ≠ a → e.key ∈ (m₂.state.buckets j).map (·.key)) ∧
        ∃ l, m₂.state.buckets i = l ++ [new]) ∧
    (∀ c ch p fn msg, exec Γ ch c m₀.state = some p → .base (.callback false fn msg) ∈ p.2 →
      ∃ tag r, (tag, r) ∈ m₀.state.callbacks.entries ∧ msg = r.message ∧ r.nextSend ≤ m₀.state.epoch ∧
        r.needsRetry = false) := by
  refine ⟨fun m hr => ?_, ?_, fun c ch p fn msg he hmem => failure_of_live (exec_makes he _ hmem) hlive⟩
  · have hloyal : Loyal m₀ m := by
      refine hr.invariant (I := Loyal m₀) (fun i e he => Or.inl (List.mem_map_of_mem he)) ?_
      intro m₁ l m₂ hr₁ hm hspares hs
      exact (step_loyal_iff h (run_anyStep hr₁) hm hs).2 hspares
    exact ⟨hloyal, fun l m' hs => step_loyal_iff h (run_anyStep hr) hloyal (step_of_eq_some hs)⟩
  · intro a i new msg rest ch m₁ ch' m₂ hstack hs₁ hs₂ hspares
    obtain ⟨n, stack, tr⟩ := m₀
    simp only at hstack
    subst hstack
    have hfrom := (fromRequests_of_run h).2 _ List.mem_cons_self
    have hr₁ : Run (nodeProgram Γ) anyStep _ m₁ := Run.refl.step trivial hs₁
    cases step_of_eq_some hs₁ with
    | @run _ _ _ _ _ n₁ cs₁ hwait₁ he₁ =>
      obtain ⟨hb₁, htype⟩ := buckets_of_failure he₁ hfrom
      have hloyal₂ := (step_loyal_iff h hr₁ (loyal_of_first_failure hb₁ htype) (step_of_eq_some hs₂)).2 hspares
      cases he₁
      cases step_of_eq_some hs₂ with
      | run hwait₂ he₂ =>
        obtain ⟨n₂, hevict, hp⟩ := Option.map_eq_some_iff.1 he₂
        cases hp
        obtain ⟨oldest, tl, hb, rfl⟩ := evict_cases hevict
        refine ⟨fun j e he ha => ?_, tl, buckets_setBucket_self _ i _⟩
        rcases hloyal₂ j e he with hk | hran
        · exact hk
        · have hdest : msg.destination = e.address := by
            simp only [ranOutSince, since, List.length_cons, Nat.add_assoc, Nat.add_sub_cancel_left, Nat.reduceAdd,
              List.take_succ_cons, List.take_zero, List.any_cons, List.any_nil, Call.failsAt, Bool.false_or, Bool.or_false,
              Bool.and_eq_true, decide_eq_true_eq] at hran
            exact hran.1
          rcases failure_cases hfrom with ⟨cb, hfn, -⟩ | ⟨t, top, hfn, -⟩
          · cases hfn
            exact absurd hdest.symm ha
          · cases hfn

/-- The second of two contacts was pinged and timed out, after the first was pinged for a third, which is then added. -/
def roomForNewcomer : List NodeLabel :=
  [.enter (.observe 1 (.starting 0x81))] ++ runs 1 1 ++ [.enter (.observe 2 (.starting 0x82))] ++ runs 2 1 ++
    [.enter (.ping 2 .empty)] ++ runs 3 2 ++ [.enter (.tick 2)] ++ runs 5 8 ++ [.enter (.tick 3)] ++ runs 13 7 ++
    [.enter (.observe 3 (.starting 0x83))] ++ runs 20 3 ++ [.enter (.tick 5)] ++ runs 23 9 ++ [.enter (.tick 6)] ++ runs 32 10 ++
    [.enter (.observe 3 (.starting 0x83))] ++ runs 42 1

/-- A tick in which the first contact times out: the eviction finds the newcomer in the bucket and puts it there again, and no
other contact is lost. -/
theorem loyalty_sample : ∃ m₀ m : NodeConfig, m₀.stack = [] ∧ m.stack = [] ∧
    m₀.state.buckets ⟨0, by decide⟩ = [⟨.starting 0x81, 1, 0⟩, ⟨.starting 0x83, 3, 6⟩] ∧
    m.state.buckets ⟨0, by decide⟩ = [⟨.starting 0x83, 3, 3⟩] ∧ Loyal m₀ m ∧
    ∀ l m', step (nodeProgram .reference) m l = some m' → (Loyal m₀ m' ↔ spares m₀ m l = true) := by
  obtain ⟨m₀, hr₀, h₀⟩ := exists_run_of_follow (nodeProgram .reference) (fun _ _ => true)
    (startNode ⟨2, 10000, 1000⟩ .zero 700) roomForNewcomer
    (fun m₀ => m₀.stack.isEmpty && !m₀.state.dead &&
      decide (m₀.state.buckets ⟨0, by decide⟩ = [⟨.starting 0x81, 1, 0⟩, ⟨.starting 0x83, 3, 6⟩]) &&
      (follow (nodeProgram .reference) (spares m₀) m₀ (.enter (.tick 9) :: runs 43 10)).any (fun m : NodeConfig => m.stack.isEmpty &&
        decide (m.state.buckets ⟨0, by decide⟩ = [⟨.starting 0x83, 3, 3⟩]))) (by decide +kernel)
  simp only [Bool.and_eq_true, List.isEmpty_iff, Bool.not_eq_true', decide_eq_true_eq, Option.any_eq_true] at h₀
  obtain ⟨⟨⟨hidle₀, hlive⟩, hb₀⟩, m, hm, hidle, hb⟩ := h₀
  exact ⟨m₀, m, hidle₀, hidle, hb₀, hb, (loyalty (run_anyStep hr₀) hlive).1 m (run_of_follow hm)⟩

/-- If the call sends a message, it sends it to the address. -/
def sentOnlyTo (a : UInt32) : Call → Bool
  | .base (.send msg _ _ _) => msg.destination = a
  | _ => true

/-- A contact was observed and somebody else was pinged, who has not answered the first try; a pong has come from the address
that was pinged, with the key of the contact. -/
def movedByPong : List NodeLabel :=
  [.enter (.observe 1 (.starting 0x81))] ++ runs 1 1 ++ [.enter (.ping 2 .empty)] ++ runs 2 2 ++ [.enter (.tick 2)] ++ runs 4 8 ++
    [.enter (.base (.recv ⟨MessageType.ping.code, 2, 0, 100, Ctx.reference.ping.write (PingMessage.pong (.starting 0x81))⟩))] ++
    runs 12 1

/-- Contacts are lost that nobody asked.
1. In the tick in which the ping of the first contact runs out of retries, `unobserve` removes the first contact and then the
   eviction removes the second, which was never sent anything.
2. In the tick in which a ping runs out of retries, the pong of another key's holder is handled first: the contact, which was
   never sent anything, moves to the address that was pinged, and `unobserve` removes it there. Nothing is evicted. -/
theorem loyalty_false :
    (∃ m m' : NodeConfig,
      Run (nodeProgram .reference) (fun m l => freshTags m l = true) (startNode ⟨2, 10000, 1000⟩ .zero 700) m ∧
      m.stack = [] ∧ m.state.dead = false ∧
      follow (nodeProgram .reference) freshTags m (.enter (.tick 6) :: runs 14 10) = some m' ∧ m'.stack = [] ∧
      m.state.buckets ⟨0, by decide⟩ = [⟨.starting 0x81, 1, 0⟩, ⟨.starting 0x82, 2, 0⟩] ∧
      m'.state.buckets ⟨0, by decide⟩ = [⟨.starting 0x83, 3, 0⟩] ∧ (∀ c ∈ m'.trace, sentOnlyTo 1 c.1 = true) ∧
      ¬Loyal m m') ∧
    ∃ m m' : NodeConfig,
      Run (nodeProgram .reference) (fun m l => freshTags m l = true) (startNode ⟨2, 10000, 1000⟩ .zero 700) m ∧
      m.stack = [] ∧ m.state.dead = false ∧
      follow (nodeProgram .reference) freshTags m (.enter (.tick 6) :: runs 13 14) = some m' ∧ m'.stack = [] ∧
      m.state.buckets ⟨0, by decide⟩ = [⟨.starting 0x81, 1, 0⟩] ∧
      m'.state.buckets ⟨0, by decide⟩ = [] ∧ (∀ c ∈ m'.trace, sentOnlyTo 2 c.1 = true) ∧ ¬Loyal m m' := by
  have hlost : ∀ (ls event : List NodeLabel) (b b' : List BucketEntry) (a : UInt32),
      ((follow (nodeProgram .reference) freshTags (startNode ⟨2, 10000, 1000⟩ .zero 700) ls).any (fun m : NodeConfig =>
        m.stack.isEmpty && !m.state.dead && decide (m.state.buckets ⟨0, by decide⟩ = b) &&
        (follow (nodeProgram .reference) freshTags m event).any (fun m' : NodeConfig => m'.stack.isEmpty &&
          decide (m'.state.buckets ⟨0, by decide⟩ = b') && m'.trace.all (fun c => sentOnlyTo a c.1) &&
          !decide (Loyal m m')))) = true →
      ∃ m m' : NodeConfig,
        Run (nodeProgram .reference) (fun m l => freshTags m l = true) (startNode ⟨2, 10000, 1000⟩ .zero 700) m ∧
        m.stack = [] ∧ m.state.dead = false ∧ follow (nodeProgram .reference) freshTags m event = some m' ∧ m'.stack = [] ∧
        m.state.buckets ⟨0, by decide⟩ = b ∧ m'.state.buckets ⟨0, by decide⟩ = b' ∧
        (∀ c ∈ m'.trace, sentOnlyTo a c.1 = true) ∧ ¬Loyal m m' := by
    intro ls event b b' a h
    obtain ⟨m, hr, hm⟩ := exists_run_of_follow _ _ _ _ _ h
    simp only [Bool.and_eq_true, List.isEmpty_iff, Bool.not_eq_true', decide_eq_true_eq, decide_eq_false_iff_not,
      Option.any_eq_true, List.all_eq_true] at hm
    obtain ⟨⟨⟨hidle, hlive⟩, hb⟩, m', h', ⟨⟨hidle', hb'⟩, htrace⟩, hdisloyal⟩ := hm
    exact ⟨m, m', hr, hidle, hlive, h', hidle', hb, hb', htrace, hdisloyal⟩
  exact ⟨hlost fullBucket _ _ _ _ (by decide +kernel), hlost movedByPong _ _ _ _ (by decide +kernel)⟩

end Dhtsim
