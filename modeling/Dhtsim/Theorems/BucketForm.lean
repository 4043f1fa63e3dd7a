import Dhtsim.Theorems.Duplicates
import Dhtsim.Theorems.EmptyBucket
import Dhtsim.Theorems.Metric

/-!
# What a bucket holds

As long as no request of a node times out, a bucket that was empty is a function of what the node observed: of the first `k`
keys that belong in the bucket it has the last observation of each, in the order of these (`closedForm`). Which keys are in the
bucket is up to their first observations, where they stand and with what data to their last ones.
-/

namespace Dhtsim

open CallMachine KademliaNode

/-- The epoch after the calls of a trace, which began at `start`. -/
def epochAfter (start : Time) : NodeTrace → Time
  | [] => start
  | (.base (.tick time), _) :: _ => time
  | _ :: tr => epochAfter start tr

/-- The calls of `observe` in a trace, the first one first, each as the entry that it makes. -/
def observations (start : Time) : NodeTrace → List BucketEntry
  | [] => []
  | (.observe otherAddress otherKey, _) :: tr =>
    observations start tr ++ [⟨otherKey, otherAddress, epochAfter start tr⟩]
  | _ :: tr => observations start tr

/-- The last observation of each of the first `k` keys. -/
def closedForm (k : Nat) (seen : List BucketEntry) : List BucketEntry :=
  Recency.lasts (·.key) (fun _ => 1) (seen.filter (fun e => decide (e.key ∈ Recency.firstKeys (·.key) k seen)))

/-- A step in which no request times out: it does not run a function of one for failure. -/
def noTimeout (m : NodeConfig) (l : NodeLabel) : Bool :=
  match l, m.stack with
  | .run _, .base (.callback false _ _) :: _ => false
  | _, _ => true

namespace BucketFormAux

open MetricAux EmptyBucketAux DuplicatesAux

variable {Γ : Ctx} {ch : Choice} {c : Call} {n : KademliaNode} {p : KademliaNode × List Call} {key : KademliaKey}
  {tr : NodeTrace} {rest : List Call} {start : Time} {i : Fin keyLenBits}

theorem observations_cons (hc : ∀ a k, c ≠ .observe a k) : observations start ((c, ch) :: tr) = observations start tr := by
  refine observations.eq_3 start (c, ch) tr (fun a k ch' h => ?_)
  exact hc a k (congrArg (·.1) h)

theorem epochAfter_cons (hc : ∀ time, c ≠ .base (.tick time)) : epochAfter start ((c, ch) :: tr) = epochAfter start tr := by
  refine epochAfter.eq_3 start (c, ch) tr (fun time ch' h => ?_)
  exact hc time (congrArg (·.1) h)

/-- The epoch of a live node is that of its last tick. -/
theorem epochAfter_exec (h : exec Γ ch c n = some p) (hlive : n.dead = false) (hn : n.epoch = epochAfter start tr) :
    p.1.epoch = epochAfter start ((c, ch) :: tr) := by
  by_cases hc : ∃ time, c = .base (.tick time)
  · obtain ⟨time, rfl⟩ := hc
    simp only [exec, execBase, BaseApplication.exec, hlive, Option.some.injEq] at h
    subst h
    rfl
  · have hc : ∀ time, c ≠ .base (.tick time) := fun time heq => hc ⟨time, heq⟩
    rcases exec_epoch h with ⟨time, heq, -⟩ | hsame
    · exact absurd heq (hc time)
    · rw [hsame, epochAfter_cons hc, hn]

/-- In a step in which no request times out, what runs of a request is for success. -/
theorem not_failure {m : NodeConfig} (hm : m = ⟨n, c :: rest, tr⟩) (hok : noTimeout m (.run ch) = true) (hc : c.FromRequests Γ key)
    {ok : Bool} {fn : SendFn} {msg : Message UInt32} (hcall : c = .base (.callback ok fn msg)) :
    (∃ a cb, fn = .pingSuccess a cb) ∨ ∃ t top, fn = .findSuccess t top := by
  subst hm hcall
  cases ok with
  | true => exact success_cases hc
  | false => cases hok

/-- A call that observes nothing leaves the buckets, when no request times out and nothing is evicted. -/
theorem buckets_exec {m : NodeConfig} (hm : m = ⟨n, c :: rest, tr⟩) (hok : noTimeout m (.run ch) = true)
    (hreq : c.FromRequests Γ key) (hev : c.evicts = false) (hc : ∀ a k, c ≠ .observe a k) (h : exec Γ ch c n = some p) :
    p.1.buckets = n.buckets := by
  rcases exec_buckets h with
    hsame | ⟨a, k, rfl⟩ | ⟨ok, a, cb, msg, hcall, -⟩ | ⟨ok, t, top, msg, hcall, -⟩ | ⟨ok, j, e, hd, tl, rfl, -⟩
  · exact hsame
  · exact absurd rfl (hc a k)
  · rcases not_failure hm hok hreq hcall with ⟨_, _, heq⟩ | ⟨_, _, heq⟩ <;> cases heq
  · rcases not_failure hm hok hreq hcall with ⟨_, _, heq⟩ | ⟨_, _, heq⟩ <;> cases heq
  · cases hev

/-- Nor does it evict then. -/
theorem evicts_exec {m : NodeConfig} (hm : m = ⟨n, c :: rest, tr⟩) (hok : noTimeout m (.run ch) = true)
    (hreq : c.FromRequests Γ key) (hsingle : c.Single) (h : exec Γ ch c n = some p) : ∀ x ∈ p.2, x.evicts = false := by
  rcases evicts_cases h hsingle with hnone | ⟨ok, a, j, e, msg, hcall, -⟩
  · exact hnone
  · rcases not_failure hm hok hreq hcall with ⟨_, _, heq⟩ | ⟨_, _, heq⟩ <;> cases heq

/-- The observations whose keys share exactly `i` leading bits with the node's. -/
def seenIn (key : KademliaKey) (i : Fin keyLenBits) (seen : List BucketEntry) : List BucketEntry :=
  seen.filter (fun e => decide (leadingBits key e.key = i))

/-- A node that comes from `m₀` with what it observed: each bucket is what using the observations one by one makes of it. -/
structure Following (config : Config) (key : KademliaKey) (m₀ m : NodeConfig) (tr : NodeTrace) : Prop where
  trace : m.trace = tr ++ m₀.trace
  epoch : m.state.epoch = epochAfter m₀.state.epoch tr
  evicts : ∀ c ∈ m.stack, c.evicts = false
  buckets : ∀ i, m.state.buckets i =
    (seenIn key i (observations m₀.state.epoch tr)).foldl (Recency.use (·.key) config.k) []

theorem following_run {config : Config} {m₀ : NodeConfig} {old : NodeTrace} (hI : Following config key m₀ ⟨n, c :: rest, old⟩ tr)
    (hkey : n.key = key) (hconfig : n.config = config) (hlive : n.dead = false)
    (hok : noTimeout ⟨n, c :: rest, old⟩ (.run ch) = true) (hreq : c.FromRequests Γ key) (hsingle : c.Single)
    (h : exec Γ ch c n = some p) : Following config key m₀ ⟨p.1, p.2 ++ rest, (c, ch) :: old⟩ ((c, ch) :: tr) := by
  have hbuckets : ∀ i, n.buckets i = (seenIn key i (observations m₀.state.epoch tr)).foldl (Recency.use (·.key) config.k) [] :=
    hI.buckets
  have hepoch : n.epoch = epochAfter m₀.state.epoch tr := hI.epoch
  refine ⟨?_, epochAfter_exec h hlive hepoch, fun x hx => ?_, fun i => ?_⟩
  · rw [List.cons_append, ← hI.trace]
  · rcases List.mem_append.1 hx with hx | hx
    · exact evicts_exec rfl hok hreq hsingle h x hx
    · exact hI.evicts x (List.mem_cons_of_mem _ hx)
  · by_cases hc : ∃ a k, c = .observe a k
    · obtain ⟨a, k, rfl⟩ := hc
      have hseen : sightings n i [(a, k)] = seenIn key i [⟨k, a, n.epoch⟩] := by
        simp only [sightings, seenIn, hkey, longestMatchingPrefix_eq_leadingBits, List.filter_cons, List.filter_nil]
        split_ifs
        · rfl
        · rfl
      have hobs : observations m₀.state.epoch ((.observe a k, ch) :: tr) =
          observations m₀.state.epoch tr ++ [⟨k, a, n.epoch⟩] := by rw [observations, hepoch]
      show p.1.buckets i = _
      rw [observe_buckets h i, hseen, hconfig, hbuckets i, hobs, ← List.foldl_append, seenIn, seenIn, seenIn,
        List.filter_append]
    · have hc : ∀ a k, c ≠ .observe a k := fun a k heq => hc ⟨a, k, heq⟩
      show p.1.buckets i = _
      rw [buckets_exec rfl hok hreq (hI.evicts c List.mem_cons_self) hc h, observations_cons hc]
      exact hbuckets i

end BucketFormAux

open BucketFormAux EmptyBucketAux

/-- The closed form of the buckets, for every live node that starts between two events of any run with empty buckets, and does
whatever it does from there on without a request that times out. Bucket `i` is the closed form of the observations whose keys
share exactly `i` leading bits with the node's own. -/
theorem bucket_closed_form {Γ : Ctx} {config : Config} {key : KademliaKey} {offset : Time} {m₀ m : NodeConfig}
    (h₀ : Run (nodeProgram Γ) anyStep (startNode config key offset) m₀) (hidle : m₀.stack = [])
    (hempty : ∀ i, m₀.state.buckets i = []) (h : Run (nodeProgram Γ) (fun m l => noTimeout m l = true) m₀ m)
    (hlive : m.state.dead = false) : ∃ tr, m.trace = tr ++ m₀.trace ∧ ∀ i : Fin keyLenBits, m.state.buckets i =
      closedForm config.k ((observations m₀.state.epoch tr).filter (fun e => decide (leadingBits key e.key = i))) := by
  suffices hI : ∃ tr, Following config key m₀ m tr by
    obtain ⟨tr, hI⟩ := hI
    exact ⟨tr, hI.trace, fun i => (hI.buckets i).trans (Recency.foldl_use_nil _ _ _)⟩
  refine h.invariant (I := fun m => m.state.dead = false → ∃ tr, Following config key m₀ m tr) ?_ ?_ hlive
  · refine fun _ => ⟨[], rfl, rfl, fun c hc => ?_, hempty⟩
    rw [hidle] at hc
    cases hc
  · intro m₁ l m₂ hr hI hok hs hlive
    have hr₁ := h₀.trans (run_anyStep hr)
    cases hs with
    | @run ch c rest n old n' cs hw he =>
      have hwas : n.dead = false := by
        by_cases hc : c = .base .die
        · subst hc
          cases he
          cases hlive
        · exact (exec_dead he hc).symm.trans hlive
      obtain ⟨tr, hI⟩ := hI hwas
      obtain ⟨⟨hkey, -⟩, hreq⟩ := fromRequests_of_run hr₁
      obtain ⟨⟨hid, -⟩, -⟩ := wellPlaced_of_run hr₁
      have hconfig : n.config = config := congrArg (·.2.1) hid
      exact ⟨_, following_run hI hkey hconfig hwas hok (hreq c List.mem_cons_self) (single_of_run hr₁ c List.mem_cons_self) he⟩
    | @event c n old hc =>
      obtain ⟨tr, hI⟩ := hI hlive
      refine ⟨tr, hI.trace, hI.epoch, fun x hx => ?_, hI.buckets⟩
      obtain rfl := List.mem_singleton.1 hx
      exact evicts_of_isEvent (isEvent_of_enters (Or.inl hc))
    | @reentry c f rest n old hf hc =>
      obtain ⟨tr, hI⟩ := hI hlive
      refine ⟨tr, hI.trace, hI.epoch, fun x hx => ?_, hI.buckets⟩
      rcases List.mem_cons.1 hx with rfl | hx
      · exact evicts_of_isEvent (isEvent_of_enters (Or.inr hc))
      · exact hI.evicts x hx
    | leave hf =>
      obtain ⟨tr, hI⟩ := hI hlive
      exact ⟨tr, hI.trace, hI.epoch, fun x hx => hI.evicts x (List.mem_cons_of_mem _ hx), hI.buckets⟩

/-- Three contacts for a bucket of two, the first of which is seen again later, at another address. -/
def seenAgain : List NodeLabel :=
  [.enter (.observe 1 (.starting 0x81))] ++ runs 1 1 ++ [.enter (.observe 2 (.starting 0x82))] ++ runs 2 1 ++
    [.enter (.observe 3 (.starting 0x83))] ++ runs 3 3 ++ [.enter (.tick 1)] ++ runs 6 7 ++
    [.enter (.observe 5 (.starting 0x81))] ++ runs 13 1

/-- The bucket holds the first two contacts, the first one behind the second and with its new address. -/
theorem bucket_closed_form_sample : ∃ m : NodeConfig, m.state.buckets ⟨0, by decide⟩ = [⟨.starting 0x82, 2, 0⟩, ⟨.starting 0x81, 5, 1⟩] ∧
    ∃ tr, m.trace = tr ++ [] ∧ ∀ i : Fin keyLenBits, m.state.buckets i =
      closedForm 2 ((observations 0 tr).filter (fun e => decide (leadingBits .zero e.key = i))) := by
  obtain ⟨m, hr, hm⟩ := exists_run_of_follow (nodeProgram .reference) noTimeout (startNode ⟨2, 10000, 1000⟩ .zero 700) seenAgain
    (fun m => !m.state.dead && decide (m.state.buckets ⟨0, by decide⟩ = [⟨.starting 0x82, 2, 0⟩, ⟨.starting 0x81, 5, 1⟩]))
    (by decide +kernel)
  simp only [Bool.and_eq_true, Bool.not_eq_true', decide_eq_true_eq] at hm
  exact ⟨m, hm.2, bucket_closed_form .refl rfl (fun _ => rfl) hr hm.1⟩

end Dhtsim
