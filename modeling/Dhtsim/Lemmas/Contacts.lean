import Dhtsim.Lemmas.Lookups

/-!
# Where the contacts of a node come from

A node holds contacts in its buckets, in its lookups, in the functions of its requests and in the newcomers that wait for a
ping. Whatever contact a node or a call has after a step was there before, or it was observed, or it was read from a reply.
-/

namespace Dhtsim

/-- The contacts that a lookup knows. -/
def NodeFinder.contacts (nf : NodeFinder) : List BucketEntry := nf.uncontacted ++ nf.contacted

/-- The contact that a function of a request captured. -/
def SendFn.top : SendFn → Option BucketEntry
  | .findSuccess _ top => some top
  | .findFailure _ top => some top
  | _ => none

namespace KademliaNode

/-- The node holds the contact. -/
inductive HasContact (n : KademliaNode) (e : BucketEntry) : Prop where
  | bucket (i : Fin keyLenBits) (h : e ∈ n.buckets i)
  | finder (t : KademliaKey) (nf : NodeFinder) (hf : n.nodesBeingFound.find? t = some nf) (h : e ∈ nf.contacts)
  | asked (tag : Tag) (r : SentMessage UInt32 SendFn) (fn : SendFn) (hr : (tag, r) ∈ n.callbacks.entries)
      (hfn : fn ∈ r.callback.all) (h : fn.top = some e)
  | newcomer (i : Fin keyLenBits) (h : .evict i e ∈ n.pingFns)

end KademliaNode

/-- The call carries the contact. -/
inductive Call.HasContact (e : BucketEntry) : Call → Prop where
  | asks {m : Message UInt32} {cb : CallbackSet SendFn} {mr : UInt32} {t : UInt64} (fn : SendFn) (hfn : fn ∈ cb.all)
      (h : fn.top = some e) : HasContact e (.base (.send m cb mr t))
  | asked {ok : Bool} {fn : SendFn} {m : Message UInt32} (h : fn.top = some e) : HasContact e (.base (.callback ok fn m))
  | listed {t : KademliaKey} {l : List BucketEntry} (h : e ∈ l) : HasContact e (.findNodesStep t l)
  | found {ok : Bool} {fn : FindNodesFn} {result : FindNodesMessage} (h : e ∈ result.nearest) :
      HasContact e (.found ok fn result)
  | newcomer {c : Call} (i : Fin keyLenBits) (h : .evict i e ∈ c.pingFns) : HasContact e c

namespace KademliaNode

variable {Γ : Ctx} {ch : Choice} {c : Call} {n : KademliaNode} {p : KademliaNode × List Call} {e : BucketEntry}

/-- In its base a node holds contacts only in its records. -/
theorem HasContact.of_setBase {b : BaseApplication UInt32 SendFn} (h : (n.setBase b).HasContact e)
    (hb : b.callbacks = n.callbacks) : n.HasContact e := by
  obtain ⟨address, epoch, dead, inqueue, outqueue, callbacks⟩ := b
  obtain rfl : callbacks = n.callbacks := hb
  cases h with
  | bucket j h => exact .bucket j h
  | finder t nf hf h => exact .finder t nf hf h
  | asked tag r fn hrec hfn h => exact .asked tag r fn hrec hfn h
  | newcomer j h => exact .newcomer j h

/-- After it learned of new nodes, a lookup knows those it knew and the new ones. -/
theorem mem_contacts_learn {nf : NodeFinder} {l : List BucketEntry} (h : e ∈ (nf.learn l).contacts) :
    e ∈ nf.contacts ∨ e ∈ l := by
  obtain ⟨added, heq, -, hadded, -⟩ := nf.learn_spec l
  rw [heq] at h
  simp only [NodeFinder.contacts, List.mem_append] at h ⊢
  rcases h with (h | h) | h
  · exact Or.inl (Or.inl h)
  · exact Or.inr (hadded e h)
  · exact Or.inl (Or.inr h)

/-- What `getNearest` lists is in the buckets, and not of the key it leaves out. -/
theorem mem_getNearest {count : Nat} {target exclude : KademliaKey} (h : e ∈ n.getNearest Γ count target exclude) :
    (∃ i, e ∈ n.buckets i) ∧ e.key ≠ exclude := by
  have h := mem_sortByDistanceTo.1 (List.mem_of_mem_take h)
  obtain ⟨i, -, h⟩ := List.mem_flatMap.1 h
  obtain ⟨h, hne⟩ := List.mem_filter.1 h
  exact ⟨⟨_, h⟩, of_decide_eq_true hne⟩

open LookupAux in
/-- A lookup knows the contacts it knew, those of the list it learns of, and the one that just replied. -/
theorem exec_finder_contacts (h : exec Γ ch c n = some p) {t : KademliaKey} {nf' : NodeFinder}
    (hf : p.1.nodesBeingFound.find? t = some nf') (he : e ∈ nf'.contacts) :
    (∃ nf, n.nodesBeingFound.find? t = some nf ∧ e ∈ nf.contacts) ∨ c.HasContact e := by
  rcases Bool.eq_false_or_eq_true (c.about t) with hc | hc
  · have hset : ∀ {n : KademliaNode} {nf}, (n.setFinder t nf).nodesBeingFound.find? t = some nf' → nf = nf' :=
      fun {n nf} hf => Option.some.inj ((find?_setFinder_self nf).symm.trans hf)
    unfold Call.about at hc
    split at hc
    · rename_i ok t' top m
      obtain rfl := of_decide_eq_true hc
      cases h
      simp only [execBase, sendCallback, findSuccess] at hf
      cases hold : n.nodesBeingFound.find? t' with
      | none =>
        simp only [hold] at hf
        cases hf
      | some nf =>
        simp only [hold] at hf
        obtain rfl := hset hf
        simp only [NodeFinder.contacts, List.mem_append, List.mem_singleton] at he
        rcases he with he | he | rfl
        · exact Or.inl ⟨nf, rfl, List.mem_append_left _ he⟩
        · exact Or.inl ⟨nf, rfl, List.mem_append_right _ he⟩
        · exact Or.inr (.asked rfl)
    · rename_i ok t' top m
      obtain rfl := of_decide_eq_true hc
      cases h
      simp only [execBase, sendCallback, findFailure] at hf
      cases hold : n.nodesBeingFound.find? t' with
      | none =>
        have hold' : (n.unobserve top.address).nodesBeingFound.find? t' = none := hold
        simp only [hold'] at hf
        cases hf
      | some nf =>
        have hold' : (n.unobserve top.address).nodesBeingFound.find? t' = some nf := hold
        simp only [hold'] at hf
        obtain rfl := hset hf
        exact Or.inl ⟨nf, rfl, he⟩
    · rename_i fv t' cb
      obtain rfl := of_decide_eq_true hc
      cases h
      simp only [lookup] at hf
      cases hold : n.nodesBeingFound.find? t' with
      | none =>
        simp only [hold] at hf
        obtain rfl := hset hf
        cases he
      | some nf =>
        simp only [hold] at hf
        obtain rfl := hset hf
        exact Or.inl ⟨nf, rfl, he⟩
    · rename_i t' l
      obtain rfl := of_decide_eq_true hc
      cases h
      simp only [findNodesStep] at hf
      cases hold : n.nodesBeingFound.find? t' with
      | none =>
        simp only [hold] at hf
        cases hf
      | some nf =>
        have hlearn : e ∈ (nf.learn l).contacts →
            (∃ nf', some nf = some nf' ∧ e ∈ nf'.contacts) ∨ (Call.findNodesStep t' l).HasContact e := by
          intro he
          rcases mem_contacts_learn he with he | he
          · exact Or.inl ⟨nf, rfl, he⟩
          · exact Or.inr (.listed he)
        simp only [hold] at hf
        split at hf
        · obtain rfl := hset hf
          exact hlearn he
        · split at hf
          · obtain rfl := hset hf
            exact hlearn he
          · rename_i top uncontacted hs
            obtain rfl := hset hf
            refine hlearn ?_
            simp only [NodeFinder.contacts, List.mem_append] at he ⊢
            refine he.imp_left (fun he => ?_)
            have hmem : e ∈ sortByDistanceTo Γ t' (nf.learn l).uncontacted := hs ▸ List.mem_cons_of_mem _ he
            exact mem_sortByDistanceTo.1 hmem
    · rename_i t'
      obtain rfl := of_decide_eq_true hc
      rw [(findNodesFail_eq h).1] at hf
      exact Or.inl ⟨nf', hf, he⟩
    · rename_i t'
      obtain rfl := of_decide_eq_true hc
      obtain ⟨nf, hold, hn, -⟩ := findNodesFinish_eq h
      rw [hn] at hf
      obtain rfl := hset hf
      simp only [NodeFinder.contacts, List.mem_append, mem_sortByDistanceTo] at he
      exact Or.inl ⟨nf, hold, List.mem_append.2 he⟩
    · rename_i t' v
      obtain rfl := of_decide_eq_true hc
      rw [(findValueFinish_eq h).1] at hf
      exact Or.inl ⟨nf', hf, he⟩
    · rename_i t'
      obtain rfl := of_decide_eq_true hc
      cases h
      simp at hf
    · cases hc
  · rw [exec_finder h hc] at hf
    exact Or.inl ⟨nf', hf, he⟩

/-- What a node has in its buckets after a call was there, or was observed, or waited for a ping. -/
theorem exec_bucket_contacts (h : exec Γ ch c n = some p) (i : Fin keyLenBits) (he : e ∈ p.1.buckets i) :
    n.HasContact e ∨ c.HasContact e ∨ ∃ a k, c = .observe a k ∧ k ≠ n.key ∧ e.key = k ∧ e.address = a := by
  have hne : ∀ (k : KademliaKey) (i : Fin keyLenBits), longestMatchingPrefix n.key k = i → k ≠ n.key := by
    rintro k i hi rfl
    rw [longestMatchingPrefix_self] at hi
    exact absurd i.2 (by omega)
  refine exec_buckets_forall (P := fun _ l => ∀ e ∈ l, n.HasContact e ∨ c.HasContact e ∨
    ∃ a k, c = .observe a k ∧ k ≠ n.key ∧ e.key = k ∧ e.address = a) h (fun i e he => Or.inl (.bucket i he))
    (fun i l l' hl hP e he => hP e (hl.subset he)) ?_ ?_ ?_ i e he
  · intro a k i l₁ old l₂ hc hi _ hP e he
    simp only [List.mem_append, List.mem_singleton] at he
    rcases he with (he | he) | rfl
    · exact hP e (List.mem_append_left _ he)
    · exact hP e (List.mem_append_right _ (List.mem_cons_of_mem _ he))
    · exact Or.inr (Or.inr ⟨a, k, hc, hne k i hi, rfl, rfl⟩)
  · intro a k i l hc hi _ _ hP e he
    simp only [List.mem_append, List.mem_singleton] at he
    rcases he with he | rfl
    · exact hP e he
    · exact Or.inr (Or.inr ⟨a, k, hc, hne k i hi, rfl, rfl⟩)
  · intro ok i e' hd tl hc hP e he
    simp only [List.mem_append, List.mem_singleton] at he
    rcases he with he | rfl
    · exact hP e (List.mem_cons_of_mem _ he)
    · exact Or.inr (Or.inl (.newcomer i (hc ▸ List.mem_singleton_self _)))

/-- A contact that a node holds after a call it held before, or the call carried it, or it was observed. -/
theorem exec_hasContact (h : exec Γ ch c n = some p) (he : p.1.HasContact e) :
    n.HasContact e ∨ c.HasContact e ∨ ∃ a k, c = .observe a k ∧ k ≠ n.key ∧ e.key = k ∧ e.address = a := by
  cases he with
  | bucket i he => exact exec_bucket_contacts h i he
  | finder t nf hf he =>
    rcases exec_finder_contacts h hf he with ⟨nf, hf, he⟩ | he
    · exact Or.inl (.finder t nf hf he)
    · exact Or.inr (Or.inl he)
  | asked tag r fn hr hfn htop =>
    rcases exec_record h hr with ⟨r', hr', -, hcb⟩ | ⟨m, mr, t, rfl, -⟩
    · exact Or.inl (.asked tag r' fn hr' (hcb ▸ hfn) htop)
    · exact Or.inr (Or.inl (.asks fn hfn htop))
  | newcomer i hfn =>
    rcases exec_pingFns h hfn with hfn | hfn
    · exact Or.inl (.newcomer i hfn)
    · exact Or.inr (Or.inl (.newcomer i hfn))

/-- A contact that a call carries was held by the node or carried by the call that made it, or it was observed, or read from a
reply to a lookup. -/
theorem makes_hasContact {x : Call} (h : Makes Γ ch n c x) (hx : x.HasContact e) :
    n.HasContact e ∨ c.HasContact e ∨ (∃ a k, c = .observe a k ∧ k ≠ n.key ∧ e.key = k ∧ e.address = a) ∨
      ∃ ok t top m, c = .base (.callback ok (.findSuccess t top) m) ∧ e ∈ (readFindNodes Γ ch m).nearest := by
  cases hx with
  | newcomer i hfn =>
    rcases makes_pingFns h hfn with hfn | hfn | heq | ⟨a, k, i', rfl, hi, -, -, heq⟩
    · exact Or.inl (.newcomer i hfn)
    · exact Or.inr (Or.inl (.newcomer i hfn))
    · cases heq
    · cases heq
      refine Or.inr (Or.inr (Or.inl ⟨a, k, rfl, ?_, rfl, rfl⟩))
      rintro rfl
      rw [longestMatchingPrefix_self] at hi
      exact absurd i.2 (by omega)
  | asks fn hfn htop =>
    cases h with
    | @stepSend t l uncontacted nf top hf hs =>
      have htop' : top = e := by
        rcases CallbackSet.mem_all.1 hfn with hfn | hfn <;> cases List.mem_singleton.1 hfn <;> exact Option.some.inj htop
      have hmem : top ∈ sortByDistanceTo Γ t (nf.learn l).uncontacted := hs ▸ List.mem_cons_self
      rcases mem_contacts_learn (List.mem_append_left _ (mem_sortByDistanceTo.1 hmem)) with he | he
      · exact Or.inl (.finder t nf hf (htop' ▸ he))
      · exact Or.inr (Or.inl (.listed (htop' ▸ he)))
    | pingSend hf =>
      rcases CallbackSet.mem_all.1 hfn with hfn | hfn <;> cases List.mem_singleton.1 hfn <;> cases htop
    | pong | findNodesReply | storeReply | storeSend => cases hfn
  | asked htop =>
    cases h with
    | giveUp hn hdue hr hfn =>
      exact Or.inl (.asked _ _ _ (SortedMap.mem_of_next hn) (CallbackSet.mem_all.2 (Or.inr hfn)) htop)
    | resolve hf hfn =>
      exact Or.inl (.asked _ _ _ (SortedMap.find?_eq_some_iff.1 hf) (CallbackSet.mem_all.2 (Or.inl hfn)) htop)
    | sendDead hd hfn => exact Or.inr (Or.inl (.asks _ (CallbackSet.mem_all.2 (Or.inr hfn)) htop))
  | listed he =>
    cases h with
    | lookupStart hf => obtain ⟨⟨i, he⟩, -⟩ := mem_getNearest he; exact Or.inl (.bucket i he)
    | replied hf hv => exact Or.inr (Or.inr (Or.inr ⟨_, _, _, _, rfl, he⟩))
    | timedOut hf => cases he
  | found he =>
    cases h with
    | failFound hf hfn => cases he
    | finishFound hf hfn =>
      exact Or.inl (.finder _ _ hf (List.mem_append_right _ (mem_sortByDistanceTo.1 he)))
    | valueFinishFound hf hfn => cases he

end KademliaNode

end Dhtsim
