import Dhtsim.Lemmas.Search
import Dhtsim.Lemmas.Tracker

/-!
# Lookups

In every reachable configuration a target has no lookup, or one lookup that is in one place, and whose finder shows the progress
of a search (`lookupState_of_run`): the one that the calls made since the last finder of the target was erased (`lookupView`).
-/

namespace Dhtsim

open CallMachine

/-! ## What calls do for a lookup -/

def Call.starts (t : KademliaKey) : Call → List Bool
  | .lookup findValue t' _ => if t' = t then [findValue] else []
  | _ => []

def Call.offers (t : KademliaKey) : Call → List BucketEntry
  | .findNodesStep t' newNodes => if t' = t then newNodes else []
  | _ => []

def SendFn.asks (t : KademliaKey) : SendFn → List BucketEntry
  | .findSuccess t' top => if t' = t then [top] else []
  | _ => []

def Call.asks (t : KademliaKey) : Call → List BucketEntry
  | .base (.send _ cb _ _) => cb.successFns.flatMap (SendFn.asks t)
  | _ => []

def Call.replies (Γ : Ctx) (t : KademliaKey) (ch : Choice) : Call → List (BucketEntry × FindNodesMessage)
  | .base (.callback true (.findSuccess t' top) m) => if t' = t then [(top, KademliaNode.readFindNodes Γ ch m)] else []
  | _ => []

theorem mem_replies {Γ : Ctx} {t : KademliaKey} {ch : Choice} {c : Call} {r : BucketEntry × FindNodesMessage}
    (h : r ∈ c.replies Γ t ch) :
    ∃ top m, c = .base (.callback true (.findSuccess t top) m) ∧ r = (top, KademliaNode.readFindNodes Γ ch m) := by
  unfold Call.replies at h
  split at h
  · split at h
    · rename_i ht
      subst ht
      exact ⟨_, _, rfl, List.mem_singleton.1 h⟩
    · cases h
  · cases h

def Call.timesOut (t : KademliaKey) : Call → List BucketEntry
  | .base (.callback false (.findFailure t' top) _) => if t' = t then [top] else []
  | _ => []

/-- What the calls did since the last finder of the target was erased, the first one first. -/
def sinceErase {α : Type} (t : KademliaKey) (f : Call × Choice → List α) : NodeTrace → List α
  | [] => []
  | e :: tr => if e.1 = .eraseFinder t then [] else sinceErase t f tr ++ f e

/-- The `findNodes` and `findValue` calls for the target. -/
def startedBy (t : KademliaKey) (tr : NodeTrace) : List Bool := sinceErase t (fun e => e.1.starts t) tr

/-- The nodes that the lookup was told of, by `getNearest` and by the replies. -/
def offeredTo (t : KademliaKey) (tr : NodeTrace) : List BucketEntry := sinceErase t (fun e => e.1.offers t) tr

/-- The contacts that a request was sent to. -/
def queriedFor (t : KademliaKey) (tr : NodeTrace) : List BucketEntry := sinceErase t (fun e => e.1.asks t) tr

/-- The contacts whose reply came before their request timed out, with what was read from it. -/
def repliedTo (Γ : Ctx) (t : KademliaKey) (tr : NodeTrace) : List (BucketEntry × FindNodesMessage) :=
  sinceErase t (fun e => e.1.replies Γ t e.2) tr

/-- The contacts whose request ran out of retries. -/
def timedOutFor (t : KademliaKey) (tr : NodeTrace) : List BucketEntry := sinceErase t (fun e => e.1.timesOut t) tr

/-- The view of the lookup for a target. A request counts as soon as the call that sends it is made. -/
def lookupView (Γ : Ctx) (t : KademliaKey) (stack : List Call) (tr : NodeTrace) : LookupView where
  started := startedBy t tr
  offered := offeredTo t tr
  asked := queriedFor t tr ++ stack.flatMap (Call.asks t)
  replied := repliedTo Γ t tr
  timedOut := timedOutFor t tr

namespace LookupAux

/-- The lookup of a target that is pending, with its phase. -/
def tracker (t : KademliaKey) : Tracker LookupPhase where
  fn
    | .pingSuccess _ _ => []
    | .pingFailure _ _ => []
    | .findSuccess t' top => if t' = t then [.request top] else []
    | .findFailure t' top => if t' = t then [.request top] else []
  call
    | .findNodesStep t' newNodes => if t' = t then [.step newNodes] else []
    | .findNodesFail t' => if t' = t then [.exhausted true] else []
    | .findNodesFinish t' => if t' = t then [.exhausted false] else []
    | .findValueFinish t' _ => if t' = t then [.valued] else []
    | .eraseFinder t' => if t' = t then [.closing] else []
    | _ => []
  fn_ping _ _ := rfl
  fn_find _ _ := rfl
  call_dispatch _ := rfl

end LookupAux

/-- A target has no lookup, or it has a finder and is in one phase, and the finder shows the progress made. Where tags may be
drawn twice (`lossy`), the request of the lookup may have been lost. -/
def LookupState (Γ : Ctx) (lossy : Prop) (t : KademliaKey) (n : KademliaNode) (stack : List Call) (tr : NodeTrace) : Prop :=
  (n.nodesBeingFound.find? t = none ∧ (LookupAux.tracker t).pending n stack = [] ∧
      lookupView Γ t stack tr = ⟨[], [], [], [], []⟩) ∨
    ∃ nf φ, n.nodesBeingFound.find? t = some nf ∧
      ((LookupAux.tracker t).pending n stack = [φ] ∨ (lossy ∧ (LookupAux.tracker t).pending n stack = [])) ∧
      Progress t (lookupView Γ t stack tr) nf φ

/-! ## Calls about other things -/

/-- The calls that may change the lookup of a target. -/
def Call.about (t : KademliaKey) : Call → Bool
  | .base (.callback _ (.findSuccess t' _) _) => t' = t
  | .base (.callback _ (.findFailure t' _) _) => t' = t
  | .lookup _ t' _ => t' = t
  | .findNodesStep t' _ => t' = t
  | .findNodesFail t' => t' = t
  | .findNodesFinish t' => t' = t
  | .findValueFinish t' _ => t' = t
  | .eraseFinder t' => t' = t
  | _ => false

namespace LookupAux

variable {Γ : Ctx} {lossy : Prop} {key t : KademliaKey} {ch : Choice} {c : Call} {n n' : KademliaNode}
  {p : KademliaNode × List Call} {rest stack : List Call} {tr : NodeTrace}

open KademliaNode

theorem find?_setFinder_of_ne {t' : KademliaKey} (nf : NodeFinder) (h : t' ≠ t) :
    (n.setFinder t' nf).nodesBeingFound.find? t = n.nodesBeingFound.find? t :=
  SortedMap.find?_insert_of_ne _ _ (Ne.symm h)

@[simp] theorem find?_setFinder_self (nf : NodeFinder) : (n.setFinder t nf).nodesBeingFound.find? t = some nf :=
  SortedMap.find?_insert_self _ _ _

/-- A call that is not about a target leaves its finder alone. -/
theorem exec_finder (h : exec Γ ch c n = some p) (hc : c.about t = false) :
    p.1.nodesBeingFound.find? t = n.nodesBeingFound.find? t := by
  obtain ⟨n', cs⟩ := p
  have hch : Changes n c n' := exec_changes h
  cases hch with
  | lookups f hm =>
    unfold movesLookup at hm
    split at hm
    · rename_i t' top m
      have hne : t' ≠ t := by simpa [Call.about] using hc
      have hn : (n.findSuccess Γ ch t' top m).1 = _ := congrArg Prod.fst (Option.some.inj h)
      rw [← hn]
      unfold findSuccess
      split
      · rfl
      · exact find?_setFinder_of_ne _ hne
    · rename_i fv t' cb
      have hne : t' ≠ t := by simpa [Call.about] using hc
      have hn : (n.lookup Γ fv t' cb).1 = _ := congrArg Prod.fst (Option.some.inj h)
      rw [← hn]
      unfold lookup
      split
      · exact find?_setFinder_of_ne _ hne
      · exact find?_setFinder_of_ne _ hne
    · rename_i t' l
      have hne : t' ≠ t := by simpa [Call.about] using hc
      have hn : (n.findNodesStep Γ t' l).1 = _ := congrArg Prod.fst (Option.some.inj h)
      rw [← hn]
      unfold findNodesStep
      split
      · rfl
      · dsimp only
        split
        · exact find?_setFinder_of_ne _ hne
        · split
          · exact find?_setFinder_of_ne _ hne
          · exact find?_setFinder_of_ne _ hne
    · rename_i t'
      have hne : t' ≠ t := by simpa [Call.about] using hc
      obtain ⟨nf, -, hn, -⟩ := findNodesFinish_eq h
      rw [hn]
      exact find?_setFinder_of_ne _ hne
    · rename_i t'
      have hne : t' ≠ t := by simpa [Call.about] using hc
      cases h
      exact SortedMap.find?_erase_of_ne _ (Ne.symm hne)
    · cases hm
  | @findFailed ok t' top m f =>
    have hne : t' ≠ t := by simpa [Call.about] using hc
    have hn : (n.findFailure t' top).1 = _ := congrArg Prod.fst (Option.some.inj h)
    rw [← hn]
    unfold findFailure
    dsimp only
    split
    · rfl
    · exact find?_setFinder_of_ne (n := n.unobserve top.address) _ hne
  | _ => rfl

/-- A call that is not about a target makes no call that stands for its lookup, unless it is one of the base. -/
theorem ofCall_of_makes {x : Call} (h : Makes Γ ch n c x) (hc : c.about t = false)
    (hb : ∀ b, c = .base b → ∃ ok fn m, b = .callback ok fn m) : (tracker t).ofCall x = [] := by
  have hbase : ∀ b, c = .base b → (∀ ok fn m, b ≠ .callback ok fn m) → False := by
    intro b hb' hne
    obtain ⟨ok, fn, m, rfl⟩ := hb b hb'
    exact hne ok fn m rfl
  have hif : ∀ {t' : KademliaKey} {φ : LookupPhase}, decide (t' = t) = false → (if t' = t then [φ] else []) = [] :=
    fun h => if_neg (by simpa using h)
  cases h with
  | giveUp | sendDead | resolve => exact (hbase _ rfl (by simp)).elim
  | stepSend hf hs => exact (List.append_nil _).trans (hif hc)
  | lookupStart | stepFail | stepFinish | valueFound | replied | timedOut | failErase | finishErase | valueFinishErase =>
    exact hif hc
  | _ => rfl

/-- A call that is not about a target makes none that asks a contact for it. -/
theorem asks_of_makes {x : Call} (h : Makes Γ ch n c x) (hc : c.about t = false) : x.asks t = [] := by
  cases h with
  | @stepSend t' l uncontacted nf top hf hs =>
    have hne : ¬t' = t := by simpa [Call.about] using hc
    exact (List.append_nil _).trans (if_neg hne)
  | _ => rfl

/-- A call that is not about a target stands for nothing, unless it is one of the base. -/
theorem ofCall_of_not_about (hc : c.about t = false) (hb : ∀ b, c = .base b → ∃ ok fn m, b = .callback ok fn m) :
    (tracker t).ofCall c = [] := by
  have hif : ∀ {t' : KademliaKey} {φ : LookupPhase}, decide (t' = t) = false → (if t' = t then [φ] else []) = [] :=
    fun h => if_neg (by simpa using h)
  cases c with
  | base b =>
    obtain ⟨ok, fn, m, rfl⟩ := hb b rfl
    cases fn with
    | pingSuccess a cb => rfl
    | pingFailure a cb => rfl
    | findSuccess t' top => exact hif hc
    | findFailure t' top => exact hif hc
  | findNodesStep | findNodesFail | findNodesFinish | findValueFinish | eraseFinder => exact hif hc
  | _ => rfl

/-- The view does not change when a call runs that is not about the target. -/
theorem lookupView_of_not_about {cs : List Call} (hc : c.about t = false) (hcs : ∀ x ∈ cs, x.asks t = []) :
    lookupView Γ t (cs ++ rest) ((c, ch) :: tr) = lookupView Γ t (c :: rest) tr := by
  have herase : c ≠ .eraseFinder t := by
    rintro rfl
    simp [Call.about] at hc
  have hstarts : c.starts t = [] := by
    cases c with
    | lookup fv t' cb => exact if_neg (by simpa [Call.about] using hc)
    | _ => rfl
  have hoffers : c.offers t = [] := by
    cases c with
    | findNodesStep t' l => exact if_neg (by simpa [Call.about] using hc)
    | _ => rfl
  have hreplies : c.replies Γ t ch = [] := by
    unfold Call.replies
    split
    · exact if_neg (by simpa [Call.about] using hc)
    · rfl
  have htimes : c.timesOut t = [] := by
    unfold Call.timesOut
    split
    · exact if_neg (by simpa [Call.about] using hc)
    · rfl
  have hasks : cs.flatMap (Call.asks t) = [] := List.flatMap_eq_nil_iff.2 hcs
  simp only [lookupView, startedBy, offeredTo, queriedFor, repliedTo, timedOutFor, sinceErase, if_neg herase, hstarts,
    hoffers, hreplies, htimes, List.append_nil, List.flatMap_append, hasks, List.nil_append, List.flatMap_cons,
    List.append_assoc]

/-- A call that is not about a target leaves the state of its lookup. -/
theorem lookupState_of_not_about (ho : Orderly Γ n (c :: rest)) (hfresh : lossy ∨ DrawsNew n ch c rest)
    (h : LookupState Γ lossy t n (c :: rest) tr) (he : exec Γ ch c n = some p) (hc : c.about t = false) : LookupState Γ lossy t p.1 (p.2 ++ rest) ((c, ch) :: tr) := by
  have hview : lookupView Γ t (p.2 ++ rest) ((c, ch) :: tr) = lookupView Γ t (c :: rest) tr :=
    lookupView_of_not_about hc (fun x hx => asks_of_makes (exec_makes he x hx) hc)
  have hpending : ∃ lost, ((tracker t).pending p.1 (p.2 ++ rest) ++ lost).Perm ((tracker t).pending n (c :: rest)) ∧
      (lossy ∨ lost = []) := by
    rcases Tracker.pending_step (T := tracker t) ho he with ⟨b, lost, -, -, hperm, hlost⟩ | ⟨hb, hp, hpc⟩
    · exact ⟨lost, hperm, hfresh.imp_right hlost⟩
    · have hnone : p.2.flatMap (tracker t).ofCall = [] :=
        List.flatMap_eq_nil_iff.2 (fun x hx => ofCall_of_makes (exec_makes he x hx) hc hb)
      refine ⟨[], ?_, Or.inr rfl⟩
      rw [hp, hpc, hnone, ofCall_of_not_about hc hb, List.append_nil]
  obtain ⟨lost, hperm, hlost⟩ := hpending
  rw [LookupState, exec_finder he hc, hview]
  rcases h with ⟨h1, h2, h3⟩ | ⟨nf, φ, h1, h2, h3⟩
  · rw [h2] at hperm
    exact Or.inl ⟨h1, (List.append_eq_nil_iff.1 hperm.eq_nil).1, h3⟩
  · refine Or.inr ⟨nf, φ, h1, ?_, h3⟩
    rcases h2 with h2 | ⟨hlossy, h2⟩
    · rw [h2] at hperm
      rcases List.append_eq_singleton_iff.1 (List.perm_singleton.1 hperm) with ⟨hnil, rfl⟩ | ⟨hone, -⟩
      · exact Or.inr ⟨hlost.resolve_right (by simp), hnil⟩
      · exact Or.inl hone
    · rw [h2] at hperm
      exact Or.inr ⟨hlossy, (List.append_eq_nil_iff.1 hperm.eq_nil).1⟩

/-! ## Calls about the lookup -/

/-- A call that asks a contact stands for the request. -/
theorem asks_eq_nil {l : List Call} (h : l.flatMap (tracker t).ofCall = []) : l.flatMap (Call.asks t) = [] := by
  rw [List.flatMap_eq_nil_iff] at h ⊢
  intro x hx
  have hx := h x hx
  cases x with
  | base b =>
    cases b with
    | send m cb mr time =>
      simp only [Tracker.ofCall, Tracker.ofSet, List.flatMap_eq_nil_iff] at hx
      simp only [Call.asks, List.flatMap_eq_nil_iff]
      intro f hf
      have hf := hx f hf
      cases f with
      | findSuccess t' top =>
        by_cases ht : t' = t
        · simp [tracker, ht] at hf
        · exact if_neg ht
      | _ => rfl
    | _ => rfl
  | _ => rfl

theorem asks_eq_nil_of_pending (h : (tracker t).pending n stack = []) : stack.flatMap (Call.asks t) = [] :=
  asks_eq_nil (List.append_eq_nil_iff.1 h).1

/-- The lookup that the call on top stands for is the only one for its target. -/
theorem lookupState_front {φ : LookupPhase} (h : LookupState Γ lossy t n (c :: rest) tr)
    (hpc : (tracker t).pending n (c :: rest) = φ :: (tracker t).pending n rest) :
    ∃ nf, n.nodesBeingFound.find? t = some nf ∧ (tracker t).pending n rest = [] ∧
      Progress t (lookupView Γ t (c :: rest) tr) nf φ := by
  rcases h with ⟨-, h2, -⟩ | ⟨nf, φ', h1, h2, h3⟩
  · rw [hpc] at h2
    cases h2
  · rcases h2 with h2 | ⟨-, h2⟩
    · rw [hpc] at h2
      obtain ⟨rfl, hrest⟩ := List.cons_eq_cons.1 h2
      exact ⟨nf, h1, hrest, h3⟩
    · rw [hpc] at h2
      cases h2

/-- The view after a call that does not erase the finder. -/
theorem lookupView_step {cs : List Call} (herase : c ≠ .eraseFinder t) (hc : c.asks t = [])
    (hrest : rest.flatMap (Call.asks t) = []) : lookupView Γ t (cs ++ rest) ((c, ch) :: tr) =
      { started := (lookupView Γ t (c :: rest) tr).started ++ c.starts t
        offered := (lookupView Γ t (c :: rest) tr).offered ++ c.offers t
        asked := (lookupView Γ t (c :: rest) tr).asked ++ cs.flatMap (Call.asks t)
        replied := (lookupView Γ t (c :: rest) tr).replied ++ c.replies Γ t ch
        timedOut := (lookupView Γ t (c :: rest) tr).timedOut ++ c.timesOut t } := by
  simp only [lookupView, startedBy, offeredTo, queriedFor, repliedTo, timedOutFor, sinceErase, if_neg herase, hc, hrest,
    List.flatMap_append, List.append_nil, List.flatMap_cons]

/-- What a call leaves when it hands on the lookup that it stood for. -/
theorem lookupState_handOn {f : NodeFinder} {φ : LookupPhase} (he : exec Γ ch c n = some p)
    (hb : ∀ b, c = .base b → ∃ ok fn m, b = .callback ok fn m) (hrest : (tracker t).pending n rest = [])
    (hc : c.asks t = []) (herase : c ≠ .eraseFinder t) (hf : p.1.nodesBeingFound.find? t = some f)
    (hcs : p.2.flatMap (tracker t).ofCall = [φ])
    (hp : Progress t
      { started := (lookupView Γ t (c :: rest) tr).started ++ c.starts t
        offered := (lookupView Γ t (c :: rest) tr).offered ++ c.offers t
        asked := (lookupView Γ t (c :: rest) tr).asked ++ p.2.flatMap (Call.asks t)
        replied := (lookupView Γ t (c :: rest) tr).replied ++ c.replies Γ t ch
        timedOut := (lookupView Γ t (c :: rest) tr).timedOut ++ c.timesOut t } f φ) :
    LookupState Γ lossy t p.1 (p.2 ++ rest) ((c, ch) :: tr) := by
  refine Or.inr ⟨f, φ, hf, Or.inl ?_, ?_⟩
  · rw [(Tracker.pending_other _ _ he hb).1, hcs, hrest]
    rfl
  · rw [lookupView_step herase hc (asks_eq_nil_of_pending hrest)]
    exact hp

/-- `findNodes` and `findValue` start a lookup, or join it. -/
theorem lookupState_lookup {findValue : Bool} {cb : CallbackSet FindNodesFn}
    (h : LookupState Γ lossy t n (.lookup findValue t cb :: rest) tr) (he : exec Γ ch (.lookup findValue t cb) n = some p) :
    LookupState Γ lossy t p.1 (p.2 ++ rest) ((.lookup findValue t cb, ch) :: tr) := by
  obtain ⟨hp, hpc⟩ := Tracker.pending_other (tracker t) rest he (by simp)
  rw [show (tracker t).ofCall (.lookup findValue t cb) = [] from rfl, List.nil_append] at hpc
  have hstarts : (Call.lookup findValue t cb).starts t = [findValue] := if_pos rfl
  rcases h with ⟨h1, h2, h3⟩ | ⟨nf, φ, h1, h2, h3⟩
  · have hrest : (tracker t).pending n rest = [] := hpc ▸ h2
    simp only [exec, lookup, h1, Option.some.injEq] at he
    subst he
    refine lookupState_handOn (f := NodeFinder.new findValue t cb)
      (φ := .step (n.getNearest Γ n.config.k t n.key)) (c := .lookup findValue t cb) (by simp only [exec, lookup, h1])
      (by simp) hrest rfl (by simp) (by simp) (by simp [Tracker.ofCall, tracker]) ?_
    rw [h3, hstarts]
    exact Progress.start findValue cb _
  · have hview : lookupView Γ t rest ((.lookup findValue t cb, ch) :: tr) =
        { lookupView Γ t (.lookup findValue t cb :: rest) tr with
          started := (lookupView Γ t (.lookup findValue t cb :: rest) tr).started ++ [findValue] } := by
      simp only [lookupView, startedBy, offeredTo, queriedFor, repliedTo, timedOutFor, sinceErase, hstarts, Call.offers,
        Call.asks, Call.replies, Call.timesOut, List.append_nil, List.flatMap_cons, List.nil_append]
      rfl
    simp only [exec, lookup, h1, Option.some.injEq] at he
    subst he
    refine Or.inr ⟨_, φ, find?_setFinder_self _, ?_, ?_⟩
    · rw [hp, ← hpc]
      exact h2
    · rw [List.nil_append, hview]
      exact h3.join findValue _

/-- A step asks the next contact, or finds the lookup exhausted. -/
theorem lookupState_findNodesStep {l : List BucketEntry} (h : LookupState Γ lossy t n (.findNodesStep t l :: rest) tr)
    (he : exec Γ ch (.findNodesStep t l) n = some p) :
    LookupState Γ lossy t p.1 (p.2 ++ rest) ((.findNodesStep t l, ch) :: tr) := by
  obtain ⟨-, hpc⟩ := Tracker.pending_other (tracker t) rest he (by simp)
  rw [show (tracker t).ofCall (.findNodesStep t l) = [.step l] from if_pos rfl, List.singleton_append] at hpc
  obtain ⟨nf, hf, hrest, hp⟩ := lookupState_front h hpc
  have hoffers : (Call.findNodesStep t l).offers t = l := if_pos rfl
  have he' : exec Γ ch (.findNodesStep t l) n = some (n.findNodesStep Γ t l) := rfl
  obtain rfl : n.findNodesStep Γ t l = p := Option.some.inj he
  have hwait : (nf.learn l).waiting = 0 := hp.learn.2.2.2.2.2.1
  rcases findNodesStep_cases (Γ := Γ) hf l with ⟨hun, hstep⟩ | ⟨top, uncontacted, hs, hstep⟩
  · rw [if_pos hwait] at hstep
    have hfv : (nf.learn l).findValue = nf.findValue := hp.learn.2.2.2.2.2.2
    refine lookupState_handOn (f := nf.learn l) (φ := .exhausted nf.findValue) he' (by simp) hrest rfl (by simp) ?_ ?_ ?_
    · rw [hstep]
      exact find?_setFinder_self _
    · rw [hstep, hfv]
      cases nf.findValue <;> simp [Tracker.ofCall, tracker]
    · have hasks : (n.findNodesStep Γ t l).2.flatMap (Call.asks t) = [] := by
        rw [hstep]
        split <;> rfl
      rw [hasks, hoffers]
      simp only [Call.starts, Call.replies, Call.timesOut, List.append_nil]
      exact hp.exhaust hun
  · refine lookupState_handOn (φ := .request top) he' (by simp) hrest rfl (by simp) ?_ ?_ ?_
      (f := { nf.learn l with uncontacted := uncontacted, waiting := (nf.learn l).waiting + 1 })
    · rw [hstep]
      exact find?_setFinder_self _
    · rw [hstep]
      simp [Tracker.ofCall, Tracker.ofSet, CallbackSet.of, tracker]
    · have hasks : (n.findNodesStep Γ t l).2.flatMap (Call.asks t) = [top] := by
        rw [hstep]
        simp [Call.asks, CallbackSet.of, SendFn.asks]
      rw [hasks, hoffers]
      simp only [Call.starts, Call.replies, Call.timesOut, List.append_nil]
      exact hp.ask hs

/-- The contact that was asked replies. -/
theorem lookupState_findSuccess {top : BucketEntry} {m : Message UInt32}
    (h : LookupState Γ lossy t n (.base (.callback true (.findSuccess t top) m) :: rest) tr)
    (he : exec Γ ch (.base (.callback true (.findSuccess t top) m)) n = some p) :
    LookupState Γ lossy t p.1 (p.2 ++ rest) ((.base (.callback true (.findSuccess t top) m), ch) :: tr) := by
  obtain ⟨-, hpc⟩ := Tracker.pending_other (tracker t) rest he (by simp)
  rw [show (tracker t).ofCall (.base (.callback true (.findSuccess t top) m)) = [.request top] from if_pos rfl,
    List.singleton_append] at hpc
  obtain ⟨nf, hf, hrest, hp⟩ := lookupState_front h hpc
  have hreplies : (Call.base (.callback true (.findSuccess t top) m)).replies Γ t ch = [(top, readFindNodes Γ ch m)] :=
    if_pos rfl
  have hstep : p = (n.setFinder t { nf with contacted := nf.contacted ++ [top], waiting := nf.waiting - 1 },
      [if (readFindNodes Γ ch m).findValue && (readFindNodes Γ ch m).valueFound then
        .findValueFinish t (readFindNodes Γ ch m).value else .findNodesStep t (readFindNodes Γ ch m).nearest]) := by
    simp only [exec, execBase, sendCallback, findSuccess, hf, Option.some.injEq] at he
    exact he.symm
  refine lookupState_handOn he (by simp) hrest rfl (by simp) (by rw [hstep]; exact find?_setFinder_self _)
    (φ := if (readFindNodes Γ ch m).findValue && (readFindNodes Γ ch m).valueFound then .valued
      else .step (readFindNodes Γ ch m).nearest) ?_ ?_
  · rw [hstep]
    split <;> simp [Tracker.ofCall, tracker]
  · have hasks : p.2.flatMap (Call.asks t) = [] := by
      rw [hstep]
      split <;> rfl
    rw [hasks, hreplies]
    simp only [Call.starts, Call.offers, Call.timesOut, List.append_nil]
    exact hp.reply _

/-- The request of the contact runs out of retries. -/
theorem lookupState_findFailure {top : BucketEntry} {m : Message UInt32}
    (h : LookupState Γ lossy t n (.base (.callback false (.findFailure t top) m) :: rest) tr)
    (he : exec Γ ch (.base (.callback false (.findFailure t top) m)) n = some p) :
    LookupState Γ lossy t p.1 (p.2 ++ rest) ((.base (.callback false (.findFailure t top) m), ch) :: tr) := by
  obtain ⟨-, hpc⟩ := Tracker.pending_other (tracker t) rest he (by simp)
  rw [show (tracker t).ofCall (.base (.callback false (.findFailure t top) m)) = [.request top] from if_pos rfl,
    List.singleton_append] at hpc
  obtain ⟨nf, hf, hrest, hp⟩ := lookupState_front h hpc
  have htimes : (Call.base (.callback false (.findFailure t top) m)).timesOut t = [top] := if_pos rfl
  have hstep : p = ((n.unobserve top.address).setFinder t { nf with waiting := nf.waiting - 1 }, [.findNodesStep t []]) := by
    simp only [exec, execBase, sendCallback, findFailure] at he
    rw [show (n.unobserve top.address).nodesBeingFound.find? t = some nf from hf] at he
    exact (Option.some.inj he).symm
  refine lookupState_handOn he (by simp) hrest rfl (by simp) (by rw [hstep]; exact find?_setFinder_self _)
    (φ := .step []) ?_ ?_
  · rw [hstep]
    simp [Tracker.ofCall, tracker]
  · have hasks : p.2.flatMap (Call.asks t) = [] := by rw [hstep]; rfl
    rw [hasks, htimes]
    simp only [Call.starts, Call.offers, Call.replies, List.append_nil]
    exact hp.timeOut

/-- Completing a lookup makes one call that stands for it, the one that erases its finder. -/
theorem ofCall_complete (nf : NodeFinder) (success : Bool) (result : FindNodesMessage) :
    (complete nf t success result).flatMap (tracker t).ofCall = [.closing] ∧
      (complete nf t success result).flatMap (Call.asks t) = [] := by
  constructor
  · simp [complete, List.flatMap_append, List.flatMap_map, Tracker.ofCall, tracker]
  · simp [complete, List.flatMap_append, List.flatMap_map, Call.asks]

/-- The calls that end a lookup run its callbacks. -/
theorem lookupState_complete {φ : LookupPhase} (h : LookupState Γ lossy t n (c :: rest) tr) (he : exec Γ ch c n = some p)
    (hc : ∃ v, c = .findNodesFail t ∧ φ = .exhausted true ∨ c = .findNodesFinish t ∧ φ = .exhausted false ∨
      c = .findValueFinish t v ∧ φ = .valued) :
    LookupState Γ lossy t p.1 (p.2 ++ rest) ((c, ch) :: tr) := by
  have hb : ∀ b, c = .base b → ∃ ok fn m, b = .callback ok fn m := by
    rintro b rfl
    obtain ⟨v, ⟨h, -⟩ | ⟨h, -⟩ | ⟨h, -⟩⟩ := hc <;> cases h
  have hφ : φ.waiting = 0 ∧ φ.inFlight = [] := by
    obtain ⟨v, ⟨-, rfl⟩ | ⟨-, rfl⟩ | ⟨-, rfl⟩⟩ := hc <;> exact ⟨rfl, rfl⟩
  have hcall : (tracker t).ofCall c = [φ] := by
    obtain ⟨v, ⟨rfl, rfl⟩ | ⟨rfl, rfl⟩ | ⟨rfl, rfl⟩⟩ := hc <;> exact if_pos rfl
  obtain ⟨-, hpc⟩ := Tracker.pending_other (tracker t) rest he hb
  rw [hcall, List.singleton_append] at hpc
  obtain ⟨nf, hf, hrest, hp⟩ := lookupState_front h hpc
  have hstep : ∃ contacted success result, contacted.Perm nf.contacted ∧
      p.1.nodesBeingFound.find? t = some { nf with contacted := contacted } ∧ p.2 = complete nf t success result := by
    obtain ⟨v, ⟨rfl, -⟩ | ⟨rfl, -⟩ | ⟨rfl, -⟩⟩ := hc
    · obtain ⟨h1, nf', h2, h3⟩ := findNodesFail_eq he
      cases hf.symm.trans h2
      exact ⟨nf.contacted, _, _, List.Perm.refl _, h1 ▸ hf, h3⟩
    · obtain ⟨nf', h2, h1, h3⟩ := findNodesFinish_eq he
      cases hf.symm.trans h2
      exact ⟨_, _, _, Γ.sort_perm _ _, by rw [h1]; exact find?_setFinder_self _, h3⟩
    · obtain ⟨h1, nf', h2, h3⟩ := findValueFinish_eq he
      cases hf.symm.trans h2
      exact ⟨nf.contacted, _, _, List.Perm.refl _, h1 ▸ hf, h3⟩
  obtain ⟨contacted, success, result, hperm, hf', hcs⟩ := hstep
  obtain ⟨h1, h2⟩ := ofCall_complete (t := t) nf success result
  refine lookupState_handOn he hb hrest ?_ ?_ hf' (hcs ▸ h1) ?_
  · obtain ⟨v, ⟨rfl, -⟩ | ⟨rfl, -⟩ | ⟨rfl, -⟩⟩ := hc <;> rfl
  · obtain ⟨v, ⟨rfl, -⟩ | ⟨rfl, -⟩ | ⟨rfl, -⟩⟩ := hc <;> simp
  · have hview : c.starts t = [] ∧ c.offers t = [] ∧ c.replies Γ t ch = [] ∧ c.timesOut t = [] := by
      obtain ⟨v, ⟨rfl, -⟩ | ⟨rfl, -⟩ | ⟨rfl, -⟩⟩ := hc <;> exact ⟨rfl, rfl, rfl, rfl⟩
    obtain ⟨e1, e2, e3, e4⟩ := hview
    rw [e1, e2, e3, e4, hcs, h2]
    simp only [List.append_nil]
    exact hp.finish hφ.1 hφ.2 hperm

/-- With its finder the lookup is gone. -/
theorem lookupState_eraseFinder (h : LookupState Γ lossy t n (.eraseFinder t :: rest) tr)
    (he : exec Γ ch (.eraseFinder t) n = some p) : LookupState Γ lossy t p.1 (p.2 ++ rest) ((.eraseFinder t, ch) :: tr) := by
  obtain ⟨hp, hpc⟩ := Tracker.pending_other (tracker t) rest he (by simp)
  rw [show (tracker t).ofCall (.eraseFinder t) = [.closing] from if_pos rfl, List.singleton_append] at hpc
  obtain ⟨nf, hf, hrest, -⟩ := lookupState_front h hpc
  cases he
  refine Or.inl ⟨SortedMap.find?_erase_self _ _, ?_, ?_⟩
  · rw [hp, hrest]
    rfl
  · simp [lookupView, startedBy, offeredTo, queriedFor, repliedTo, timedOutFor, sinceErase, asks_eq_nil_of_pending hrest]

/-- A step that runs a call. -/
theorem lookupState_exec (ho : Orderly Γ n (c :: rest)) (hfresh : lossy ∨ DrawsNew n ch c rest)
    (h : LookupState Γ lossy t n (c :: rest) tr) (he : exec Γ ch c n = some p) : LookupState Γ lossy t p.1 (p.2 ++ rest) ((c, ch) :: tr) := by
  cases hc : c.about t with
  | false => exact lookupState_of_not_about ho hfresh h he hc
  | true =>
    have hfrom := ho.calls c List.mem_cons_self
    unfold Call.about at hc
    split at hc
    · rename_i success t' top m
      obtain rfl : t' = t := of_decide_eq_true hc
      cases success with
      | true => exact lookupState_findSuccess h he
      | false => rcases failure_cases hfrom with ⟨cb, hfn, -⟩ | ⟨_, _, hfn, -⟩ <;> cases hfn
    · rename_i success t' top m
      obtain rfl : t' = t := of_decide_eq_true hc
      cases success with
      | true => rcases success_cases hfrom with ⟨a, cb, hfn⟩ | ⟨_, _, hfn⟩ <;> cases hfn
      | false => exact lookupState_findFailure h he
    · obtain rfl := of_decide_eq_true hc
      exact lookupState_lookup h he
    · obtain rfl := of_decide_eq_true hc
      exact lookupState_findNodesStep h he
    · obtain rfl := of_decide_eq_true hc
      exact lookupState_complete h he ⟨[], Or.inl ⟨rfl, rfl⟩⟩
    · obtain rfl := of_decide_eq_true hc
      exact lookupState_complete h he ⟨[], Or.inr (Or.inl ⟨rfl, rfl⟩)⟩
    · obtain rfl := of_decide_eq_true hc
      exact lookupState_complete h he ⟨_, Or.inr (Or.inr ⟨rfl, rfl⟩)⟩
    · obtain rfl := of_decide_eq_true hc
      exact lookupState_eraseFinder h he
    · cases hc

/-- A call that stands for no lookup, and erases no record, does not count. -/
theorem lookupState_cons_iff (hnil : (tracker t).ofCall c = []) (herase : c.erases = none) :
    LookupState Γ lossy t n (c :: stack) tr ↔ LookupState Γ lossy t n stack tr := by
  have hasks : c.asks t = [] := by simpa using asks_eq_nil (t := t) (l := [c]) (by simpa using hnil)
  have hview : lookupView Γ t (c :: stack) tr = lookupView Γ t stack tr := by
    simp only [lookupView, List.flatMap_cons, hasks, List.nil_append]
  rw [LookupState, LookupState, Tracker.pending_cons herase, hnil, List.nil_append, hview]

/-- What comes in stands for no lookup and asks nobody. -/
theorem lookupState_enter (hc : c.isEvent = true) (h : LookupState Γ lossy t n stack tr) :
    LookupState Γ lossy t n (c :: stack) tr := by
  refine (lookupState_cons_iff ?_ (erases_of_isEvent hc)).2 h
  cases c with
  | base b => exact Tracker.ofCall_base_of_isEvent hc
  | findNodesStep | findNodesFail | findNodesFinish | findValueFinish | eraseFinder => cases hc
  | _ => rfl

/-- Outside code that returns stood for nothing. -/
theorem lookupState_leave (hc : c.isUserCode = true) (h : LookupState Γ lossy t n (c :: rest) tr) :
    LookupState Γ lossy t n rest tr := by
  cases c with
  | userCode => exact (lookupState_cons_iff rfl rfl).1 h
  | _ => cases hc

end LookupAux

open LookupAux

/-- In every reachable configuration each target has no lookup, or one lookup that is in one place, if its request is not lost,
and whose finder shows its progress. -/
theorem lookupState_of_run {Γ : Ctx} (lossy : Prop) {config : Config} {key : KademliaKey} {offset : Time}
    {ok : NodeConfig → NodeLabel → Prop} (hok : ∀ m l, ok m l → lossy ∨ freshTags m l = true) {m : NodeConfig}
    (h : Run (nodeProgram Γ) ok (startNode config key offset) m) (t : KademliaKey) :
    LookupState Γ lossy t m.state m.stack m.trace := by
  refine h.invariant (I := fun m => LookupState Γ lossy t m.state m.stack m.trace) (Or.inl ⟨rfl, rfl, rfl⟩) ?_
  intro m l m' hr hI ho hs
  cases hs with
  | run hw he => exact lookupState_exec (orderly_of_run hr) ((hok _ _ ho).imp_right (drawsNew_of_run hr)) hI he
  | event hc => exact lookupState_enter hc hI
  | reentry hf hc => exact lookupState_enter (isEvent_of_enters (Γ := Γ) (Or.inr hc)) hI
  | leave hf => exact lookupState_leave hf hI

/-- What every step that takes a reply ensures about it, and about the kind of its lookup, holds of all replies. -/
theorem replied_of_run {Γ : Ctx} (lossy : Prop) {config : Config} {key : KademliaKey} {offset : Time}
    {ok : NodeConfig → NodeLabel → Prop} {P : Bool → FindNodesMessage → Prop}
    (hok : ∀ m l, ok m l → lossy ∨ freshTags m l = true)
    (hP : ∀ n t top msg rest tr ch nf, ok ⟨n, .base (.callback true (.findSuccess t top) msg) :: rest, tr⟩ (.run ch) →
      n.nodesBeingFound.find? t = some nf → P nf.findValue (KademliaNode.readFindNodes Γ ch msg))
    {m : NodeConfig} (h : Run (nodeProgram Γ) ok (startNode config key offset) m) (t : KademliaKey) :
    ∀ r ∈ repliedTo Γ t m.trace, ∃ findValue, (startedBy t m.trace).head? = some findValue ∧ P findValue r.2 := by
  refine h.invariant (I := fun m => ∀ r ∈ repliedTo Γ t m.trace, ∃ findValue,
    (startedBy t m.trace).head? = some findValue ∧ P findValue r.2) (fun r hr => absurd hr List.not_mem_nil) ?_
  intro m l m' hr hI ho hs
  have hstate := lookupState_of_run lossy hok hr t
  cases hs with
  | @run ch c rest n tr n' cs hw he =>
    intro r hmem
    rw [repliedTo, sinceErase] at hmem
    rw [startedBy, sinceErase]
    split at hmem
    · cases hmem
    rename_i hne
    rw [if_neg hne, List.head?_append]
    rcases List.mem_append.1 hmem with hmem | hmem
    · obtain ⟨findValue, hstarted, hr⟩ := hI r hmem
      have hstarted : (sinceErase t (fun e => e.1.starts t) tr).head? = some findValue := hstarted
      exact ⟨findValue, by rw [hstarted]; rfl, hr⟩
    · obtain ⟨top, msg, rfl, rfl⟩ := mem_replies hmem
      have hpc : (tracker t).pending n (.base (.callback true (.findSuccess t top) msg) :: rest) =
          .request top :: (tracker t).pending n rest := by
        rw [Tracker.pending_cons rfl]
        exact congrArg (· ++ _) (if_pos rfl)
      obtain ⟨nf, hf, -, hp⟩ := lookupState_front hstate hpc
      have hstarted : (sinceErase t (fun e => e.1.starts t) tr).head? = some nf.findValue := hp.started
      exact ⟨nf.findValue, by rw [hstarted]; rfl, hP _ _ _ _ _ _ _ _ ho hf⟩
  | event hc => exact hI
  | reentry hf hc => exact hI
  | leave hf => exact hI

/-! ## Between events -/

/-- The lookup that a function of a request belongs to. -/
def SendFn.lookupTarget : SendFn → Option KademliaKey
  | .pingSuccess _ _ => none
  | .pingFailure _ _ => none
  | .findSuccess t _ => some t
  | .findFailure t _ => some t

/-- Whether a function of the set belongs to the lookup for a target. -/
def CallbackSet.belongsTo (cb : CallbackSet SendFn) (t : KademliaKey) : Bool :=
  cb.all.any (fun fn => decide (fn.lookupTarget = some t))

/-- The records of the requests that the lookup for a target sent. -/
def lookupRecords (t : KademliaKey) (n : KademliaNode) : List (Tag × SentMessage UInt32 SendFn) :=
  n.callbacks.entries.filter (fun e => e.2.callback.belongsTo t)

namespace LookupAux

variable {Γ : Ctx} {t : KademliaKey} {n : KademliaNode} {tr : NodeTrace}

/-- A record of a request stands for a lookup when a function of it belongs to the lookup. -/
theorem ofSet_request {key : KademliaKey} {msg : Message UInt32} {cb : CallbackSet SendFn} (h : IsRequest Γ key msg cb) :
    (tracker t).ofSet cb = [] ∧ cb.belongsTo t = false ∨
      ∃ top, (tracker t).ofSet cb = [.request top] ∧ cb.belongsTo t = true := by
  cases h with
  | ping cb htype hdata => exact Or.inl ⟨rfl, rfl⟩
  | find t' top fv htype hdest hdata =>
    by_cases ht : t' = t
    · exact Or.inr ⟨top, by simp [Tracker.ofSet, CallbackSet.of, tracker, ht],
        by simp [CallbackSet.belongsTo, CallbackSet.all, CallbackSet.of, SendFn.lookupTarget, ht]⟩
    · exact Or.inl ⟨by simp [Tracker.ofSet, CallbackSet.of, tracker, ht],
        by simp [CallbackSet.belongsTo, CallbackSet.all, CallbackSet.of, SendFn.lookupTarget, ht]⟩

/-- The records of a lookup are as many as the records that stand for it. -/
theorem length_lookupRecords (hn : n.RecordsRequests Γ) :
    (lookupRecords t n).length = ((tracker t).ofRecords [] n).length := by
  have hall : ∀ e ∈ n.callbacks.entries, IsRequest Γ n.key e.2.message e.2.callback := fun e he => hn e.1 e.2 he
  rw [Tracker.ofRecords, List.filter_eq_self.2 (by simp), lookupRecords]
  generalize n.callbacks.entries = entries at hall
  induction entries with
  | nil => rfl
  | cons e es ih =>
    have ih := ih (fun e' he' => hall e' (List.mem_cons_of_mem _ he'))
    rw [List.flatMap_cons, List.length_append, ← ih]
    rcases ofSet_request (t := t) (hall e List.mem_cons_self) with ⟨h1, h2⟩ | ⟨top, h1, h2⟩
    · rw [List.filter_cons_of_neg (by simp [h2]), h1, List.length_nil, Nat.zero_add]
    · rw [List.filter_cons_of_pos (by simpa using h2), h1, List.length_cons, List.length_singleton, Nat.add_comm]

/-- Between events a lookup waits for a contact. -/
theorem lookupState_idle (hn : n.RecordsRequests Γ) (h : LookupState Γ False t n [] tr) :
    (n.nodesBeingFound.find? t = none ∧ lookupRecords t n = []) ∨
      ∃ nf top, n.nodesBeingFound.find? t = some nf ∧ (lookupRecords t n).length = 1 ∧
        Progress t (lookupView Γ t [] tr) nf (.request top) := by
  have hpending : (tracker t).pending n [] = (tracker t).ofRecords [] n := rfl
  rcases h with ⟨h1, h2, -⟩ | ⟨nf, φ, h1, h2, h3⟩
  · refine Or.inl ⟨h1, List.eq_nil_of_length_eq_zero ?_⟩
    rw [length_lookupRecords hn, ← hpending, h2]
    rfl
  · have h2 := h2.resolve_right (fun h => h.1)
    have hmem : φ ∈ (tracker t).ofRecords [] n := by
      rw [← hpending, h2]
      exact List.mem_singleton_self _
    obtain ⟨e, he, hφ⟩ := List.mem_flatMap.1 hmem
    rcases ofSet_request (t := t) (hn e.1 e.2 (List.mem_filter.1 he).1) with ⟨hnil, -⟩ | ⟨top, hone, -⟩
    · rw [hnil] at hφ
      cases hφ
    · rw [hone, List.mem_singleton] at hφ
      subst hφ
      refine Or.inr ⟨nf, top, h1, ?_, h3⟩
      rw [length_lookupRecords hn, ← hpending, h2]
      rfl

end LookupAux

end Dhtsim
