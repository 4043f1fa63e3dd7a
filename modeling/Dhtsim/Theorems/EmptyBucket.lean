import Dhtsim.Theorems.Eviction

/-!
# Eviction from an empty bucket

`cbFail` of `updateOrAddToBucket` erases the first entry of a bucket that was full when the ping was sent. `cb_failure` of `ping`
runs just before it and removes every entry with the address that was pinged. If those are all that is left, the bucket is empty
by the time of the erase, which is undefined then (`evict_nonempty_false`).
-/

namespace Dhtsim

open CallMachine KademliaNode

/-- The functions of a ping come from outside, or the set is the one that `updateOrAddToBucket` makes. -/
def CallbackSet.Single (cb : CallbackSet PingFn) : Prop :=
  (∀ fn ∈ cb.all, ∃ f, fn = .user f) ∨ ∃ i e, cb = .of .drop (.evict i e)

def SendFn.Single : SendFn → Prop
  | .pingSuccess _ cb => cb.Single
  | .pingFailure _ cb => cb.Single
  | _ => True

def Call.Single : Call → Prop
  | .ping _ cb => cb.Single
  | .base (.send _ cb _ _) => ∀ fn ∈ cb.all, fn.Single
  | .base (.callback _ fn _) => fn.Single
  | _ => True

/-- Whether the call is the eviction that follows a failed ping. -/
def Call.evicts : Call → Bool
  | .pinged _ (.evict _ _) => true
  | _ => false

/-- An entry other than those of the address is in the bucket that the function evicts from. -/
def KademliaNode.hasAnother (n : KademliaNode) (a : UInt32) : PingFn → Bool
  | .evict i _ => (n.buckets i).any (fun e => decide (e.address ≠ a))
  | _ => true

/-- When a ping for a full bucket fails, the bucket holds an entry with another address than the one that was pinged. -/
def keepsAnother (m : NodeConfig) (l : NodeLabel) : Bool :=
  match l, m.stack with
  | .run _, .base (.callback _ (.pingFailure a cb) _) :: _ => cb.failureFns.all (m.state.hasAnother a)
  | _, _ => true

namespace EmptyBucketAux

variable {Γ : Ctx} {ch : Choice} {c : Call} {n : KademliaNode} {p : KademliaNode × List Call} {config : Config}
  {key : KademliaKey} {offset : Time} {m m' : NodeConfig} {l : NodeLabel}

/-- The records hold only single sets, as long as only those are sent. -/
theorem exec_single (h : exec Γ ch c n = some p) (hc : c.Single)
    (hn : ∀ e ∈ n.callbacks.entries, ∀ fn ∈ e.2.callback.all, fn.Single) :
    ∀ e ∈ p.1.callbacks.entries, ∀ fn ∈ e.2.callback.all, fn.Single := by
  rintro ⟨tag, r'⟩ hr fn hfn
  rcases exec_record h hr with ⟨r, hr, -, hcb⟩ | ⟨m, mr, t, rfl, -⟩
  · exact hn _ hr fn (hcb ▸ hfn)
  · exact hc fn hfn

/-- Every ping is made with a single set. -/
theorem makes_single {x : Call} (h : Makes Γ ch n c x) (hc : c.Single)
    (hn : ∀ e ∈ n.callbacks.entries, ∀ fn ∈ e.2.callback.all, fn.Single) : x.Single := by
  cases h with
  | giveUp hnext hdue hr hf => exact hn _ (SortedMap.mem_of_next hnext) _ (CallbackSet.mem_all.2 (Or.inr hf))
  | resolve hr hf => exact hn _ (SortedMap.find?_eq_some_iff.1 hr) _ (CallbackSet.mem_all.2 (Or.inl hf))
  | sendDead hd hf => exact hc _ (CallbackSet.mem_all.2 (Or.inr hf))
  | pingOldest hi hne hk hb => exact Or.inr ⟨_, _, rfl⟩
  | pingSend hf =>
    intro fn hfn
    rcases List.mem_pair.1 hfn with rfl | rfl
    · exact hc
    · exact hc
  | stepSend hf hs =>
    intro fn hfn
    rcases List.mem_pair.1 hfn with rfl | rfl <;> trivial
  | pong | findNodesReply | storeReply | storeSend => exact fun fn hfn => absurd hfn List.not_mem_nil
  | _ => trivial

theorem single_of_isEvent (hc : c.isEvent = true) : c.Single := by
  cases c with
  | base b =>
    cases b with
    | send m cb mr t =>
      have hempty : cb.isEmpty = true := hc
      intro fn hfn
      rw [CallbackSet.all_of_isEmpty hempty] at hfn
      exact absurd hfn List.not_mem_nil
    | callback ok fn m => cases hc
    | _ => trivial
  | ping a cb => exact Or.inl (fun fn hfn => pingFns_of_isEvent hc hfn)
  | _ => trivial

/-- In every reachable configuration the functions of a ping are a single set. -/
theorem single_of_run {ok : NodeConfig → NodeLabel → Prop} (h : Run (nodeProgram Γ) ok (startNode config key offset) m) :
    ∀ c ∈ m.stack, c.Single := by
  have hinv := h.invariant_stack
    (S := fun n => ∀ e ∈ n.callbacks.entries, ∀ fn ∈ e.2.callback.all, fn.Single) (C := fun _ c => c.Single)
    ⟨fun e he => absurd he List.not_mem_nil, fun c hc => absurd hc List.not_mem_nil⟩ ?_ ?_
  · exact hinv.2
  · intro ch c rest n tr n' cs hn hc hrest _ he
    exact ⟨exec_single he hc hn, fun x hx => makes_single (exec_makes he x hx) hc hn, hrest⟩
  · intro c n stack tr _ _ hc
    exact single_of_isEvent (isEvent_of_enters hc)

/-- Evictions are made by a ping for a full bucket that fails, one at a time. -/
theorem evicts_cases (h : exec Γ ch c n = some p) (hc : c.Single) : (∀ x ∈ p.2, x.evicts = false) ∨
    ∃ ok a i e msg, c = .base (.callback ok (.pingFailure a (.of .drop (.evict i e))) msg) ∧
      p.2 = [.pinged false (.evict i e)] ∧ p.1.buckets = (n.unobserve a).buckets := by
  by_cases hev : ∃ x ∈ p.2, x.evicts = true
  · right
    obtain ⟨x, hx, hevicts⟩ := hev
    have hmakes := exec_makes h x hx
    unfold Call.evicts at hevicts
    split at hevicts
    · rename_i ok i e
      -- a set of functions from outside holds no eviction, and the other kind holds it for failure
      cases hmakes with
      | pingSucceeded hfn =>
        rcases hc with huser | ⟨i', e', rfl⟩
        · obtain ⟨f, hf⟩ := huser _ (CallbackSet.mem_all.2 (Or.inl hfn))
          cases hf
        · cases List.mem_singleton.1 hfn
      | pingFailed hfn =>
        rcases hc with huser | ⟨i', e', rfl⟩
        · obtain ⟨f, hf⟩ := huser _ (CallbackSet.mem_all.2 (Or.inr hfn))
          cases hf
        · cases List.mem_singleton.1 hfn
          cases h
          exact ⟨_, _, i, e, _, rfl, rfl, rfl⟩
    · cases hevicts
  · left
    intro x hx
    cases hevicts : x.evicts with
    | false => rfl
    | true => exact absurd ⟨x, hx, hevicts⟩ hev

/-- After a failed ping the bucket has an entry left if and only if it had one with another address. -/
theorem unobserve_ne_nil_iff (a : UInt32) (i : Fin keyLenBits) (e : BucketEntry) :
    (n.unobserve a).buckets i ≠ [] ↔ n.hasAnother a (.evict i e) = true := by
  simp only [unobserve, hasAnother, List.any_eq_true, ne_eq, List.filter_eq_nil_iff, not_forall, exists_prop,
    Decidable.not_not]

/-- An eviction is on top of the stack, with something to evict, and there is no other. -/
def Evicting (n : KademliaNode) (stack : List Call) : Prop :=
  (∀ x ∈ stack, x.evicts = false) ∨ ∃ ok i e rest, stack = .pinged ok (.evict i e) :: rest ∧ n.buckets i ≠ [] ∧
    ∀ x ∈ rest, x.evicts = false

/-- An eviction runs before anything else does. -/
theorem rest_evicts {rest : List Call} (h : Evicting n (c :: rest)) : ∀ x ∈ rest, x.evicts = false := by
  rcases h with h | ⟨ok, i, e, rest', hstack, -, h⟩
  · exact fun x hx => h x (List.mem_cons_of_mem _ hx)
  · cases hstack
    exact h

/-- The step of a run that runs a call. -/
theorem evicting_exec {rest : List Call} {tr : NodeTrace} (h : Evicting n (c :: rest)) (hc : c.Single)
    (hok : keepsAnother ⟨n, c :: rest, tr⟩ (.run ch) = true) (he : exec Γ ch c n = some p) :
    Evicting p.1 (p.2 ++ rest) := by
  have hrest := rest_evicts h
  rcases evicts_cases he hc with hnone | ⟨ok, a, i, e, msg, rfl, hcs, hb⟩
  · left
    intro x hx
    rcases List.mem_append.1 hx with hx | hx
    · exact hnone x hx
    · exact hrest x hx
  · right
    refine ⟨false, i, e, rest, by rw [hcs]; rfl, ?_, hrest⟩
    rw [hb]
    refine (unobserve_ne_nil_iff a i e).2 ?_
    exact List.all_eq_true.1 hok _ (List.mem_singleton_self _)

/-- What comes in is no eviction. -/
theorem evicts_of_isEvent (hc : c.isEvent = true) : c.evicts = false := by
  cases c with
  | pinged ok fn => cases hc
  | _ => rfl

/-- In the runs that keep another entry, an eviction always has something to evict. -/
theorem evicting_of_run (h : Run (nodeProgram Γ) (fun m l => keepsAnother m l = true) (startNode config key offset) m) :
    Evicting m.state m.stack := by
  refine h.invariant (I := fun m => Evicting m.state m.stack) (Or.inl (fun x hx => absurd hx List.not_mem_nil)) ?_
  intro m l m' hr hI hok hs
  cases hs with
  | run hw he => exact evicting_exec hI (single_of_run hr _ List.mem_cons_self) hok he
  | event hc => exact Or.inl (fun x hx => List.mem_singleton.1 hx ▸ evicts_of_isEvent hc)
  | @reentry c f rest n tr hf hc =>
    left
    intro x hx
    rcases List.mem_cons.1 hx with rfl | hx
    · exact evicts_of_isEvent (isEvent_of_enters (Γ := Γ) (Or.inr hc))
    · rcases List.mem_cons.1 hx with rfl | hx
      · -- outside code is not one either
        cases x with
        | userCode => rfl
        | _ => cases hf
      · exact rest_evicts hI x hx
  | leave hf => exact Or.inl (rest_evicts hI)

end EmptyBucketAux

open EmptyBucketAux

/-- Eviction never erases from an empty bucket, in the runs in which a ping for a full bucket fails only while the bucket holds
an entry with another address than the one that was pinged.
1. Whenever the failure callback for a full bucket is about to run, the bucket is not empty.
2. The condition is exact: when a ping for a full bucket fails in a reachable configuration, the failure callback comes next,
   and the bucket is not empty then if and only if it held an entry with another address. -/
theorem evict_nonempty {Γ : Ctx} {config : Config} {key : KademliaKey} {offset : Time} {m : NodeConfig}
    (h : Run (nodeProgram Γ) (fun m l => keepsAnother m l = true) (startNode config key offset) m) :
    (∀ ok i e rest, m.stack = .pinged ok (.evict i e) :: rest → m.state.buckets i ≠ []) ∧
    (∀ ok a cb msg rest ch m' i e, m.stack = .base (.callback ok (.pingFailure a cb) msg) :: rest →
      .evict i e ∈ cb.failureFns → step (nodeProgram Γ) m (.run ch) = some m' →
      m'.stack = .pinged false (.evict i e) :: rest ∧
        (m'.state.buckets i ≠ [] ↔ keepsAnother m (.run ch) = true)) := by
  constructor
  · intro ok i e rest hstack
    rcases evicting_of_run h with hnone | ⟨ok', i', e', rest', hstack', hb, -⟩
    · rw [hstack] at hnone
      cases hnone _ List.mem_cons_self
    · rw [hstack] at hstack'
      cases hstack'
      exact hb
  · intro ok a cb msg rest ch m' i e hstack hfn hs
    have hsingle := single_of_run h
    obtain ⟨n, stack, tr⟩ := m
    simp only at hstack
    subst hstack
    rcases hsingle _ List.mem_cons_self with huser | ⟨i', e', rfl⟩
    · obtain ⟨f, hf⟩ := huser _ (CallbackSet.mem_all.2 (Or.inr hfn))
      cases hf
    · cases List.mem_singleton.1 hfn
      cases hs
      refine ⟨rfl, ?_⟩
      have hkeeps : keepsAnother ⟨n, .base (.callback ok (.pingFailure a (.of .drop (.evict i e))) msg) :: rest, tr⟩
          (.run ch) = n.hasAnother a (.evict i e) := by
        simp only [keepsAnother, CallbackSet.of, List.all_cons, List.all_nil, Bool.and_true]
      rw [hkeeps]
      exact unobserve_ne_nil_iff a i e

/-- A bucket of two, whose first contact was pinged for a third and does not answer: the second is left when the eviction
runs. -/
theorem evict_nonempty_sample : ∃ m : NodeConfig, m.stack.head? = some (.pinged false (.evict ⟨0, by decide⟩ ⟨.starting 0x83, 3, 0⟩)) ∧
    m.state.buckets ⟨0, by decide⟩ = [⟨.starting 0x82, 2, 0⟩] ∧
    ∀ ok i e rest, m.stack = .pinged ok (.evict i e) :: rest → m.state.buckets i ≠ [] := by
  obtain ⟨m, hr, hm⟩ := exists_run_of_follow (nodeProgram .reference) keepsAnother
    (startNode ⟨2, 10000, 1000⟩ .zero 700) (fullBucket ++ (.enter (.tick 6) :: runs 14 5))
    (fun m => decide (m.stack.head? = some (.pinged false (.evict ⟨0, by decide⟩ ⟨.starting 0x83, 3, 0⟩))) &&
      decide (m.state.buckets ⟨0, by decide⟩ = [⟨.starting 0x82, 2, 0⟩])) (by decide +kernel)
  simp only [Bool.and_eq_true, decide_eq_true_eq] at hm
  exact ⟨m, hm.1, hm.2, (evict_nonempty hr).1⟩

/-- A bucket of one is full, its contact is pinged for a second one, and does not answer the two tries. -/
def fullBucketOfOne : List NodeLabel :=
  [.enter (.observe 1 (.starting 0x81))] ++ runs 1 1 ++ [.enter (.observe 2 (.starting 0x82))] ++ runs 2 3 ++
    [.enter (.tick 2)] ++ runs 5 8 ++ [.enter (.tick 6)] ++ runs 13 5

/-- The pinged contact was the only one: the eviction finds the bucket empty, and cannot run. -/
theorem evict_nonempty_false : ∃ m : NodeConfig,
    Run (nodeProgram .reference) (fun m l => freshTags m l = true) (startNode ⟨1, 10000, 1000⟩ .zero 700) m ∧
    m.state.dead = false ∧ m.stack.head? = some (.pinged false (.evict ⟨0, by decide⟩ ⟨.starting 0x82, 2, 0⟩)) ∧
    m.state.buckets ⟨0, by decide⟩ = [] ∧ ∀ ch, step (nodeProgram .reference) m (.run ch) = none := by
  obtain ⟨m, hr, hm⟩ := exists_run_of_follow (nodeProgram .reference) freshTags
    (startNode ⟨1, 10000, 1000⟩ .zero 700) fullBucketOfOne
    (fun m => !m.state.dead && decide (m.stack.head? = some (.pinged false (.evict ⟨0, by decide⟩ ⟨.starting 0x82, 2, 0⟩))) &&
      decide (m.state.buckets ⟨0, by decide⟩ = [])) (by decide +kernel)
  simp only [Bool.and_eq_true, Bool.not_eq_true', decide_eq_true_eq] at hm
  obtain ⟨⟨hlive, hhead⟩, hb⟩ := hm
  refine ⟨m, hr, hlive, hhead, hb, fun ch => ?_⟩
  obtain ⟨rest, hstack⟩ := List.head?_eq_some_iff.1 hhead
  have hevict : m.state.evict ⟨0, by decide⟩ ⟨.starting 0x82, 2, 0⟩ = none := by simp only [evict, hb]
  simp only [step, hstack, nodeProgram, Call.isUserCode, exec, hevict, Option.map_none, Bool.false_eq_true, if_false]

end Dhtsim
