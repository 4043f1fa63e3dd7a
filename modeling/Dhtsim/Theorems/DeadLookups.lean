import Dhtsim.Lemmas.Callers
import Dhtsim.Model.Outside

/-!
# Lookups of a dead node

A dead node sends nothing: `send` runs the failure callback at once, so `findNodesStep`, `send` and `cbFailure` call one another
until no contact is left to ask. What bounds this recursion is the list of uncontacted nodes.
-/

namespace Dhtsim

open CallMachine KademliaNode

/-- How often a lookup for the target ended. -/
def completions (t : KademliaKey) (tr : NodeTrace) : Nat := tr.countP (fun e => decide (e.1.ends.map (·.1) = some t))

/-- A step made before the calls above the rest of the stack have returned, which starts no lookup for the target. -/
def startsNone (t : KademliaKey) (rest : List Call) (m : NodeConfig) (l : NodeLabel) : Prop :=
  rest.length < m.stack.length ∧ match l, m.stack with
    | .run _, .lookup _ t' _ :: _ => t' ≠ t
    | _, _ => True

/-- The calls that a dead node runs on behalf of its public functions: no message is taken or handled. -/
def Call.runsWhenDead : Call → Bool
  | .base (.send _ _ _ _) => true
  | .base (.callback _ _ _) => true
  | .base _ => false
  | .tick _ => false
  | _ => true

/-- The calls that go on with a lookup for the target. -/
def Call.pursues (t : KademliaKey) : Call → Bool
  | .base (.send _ cb _ _) => cb.belongsTo t
  | .base (.callback _ fn _) => fn.lookupTarget = some t
  | .findNodesStep t' _ => t' = t
  | .findNodesFail t' => t' = t
  | .findNodesFinish t' => t' = t
  | .findValueFinish t' _ => t' = t
  | _ => false

namespace DeadAux

variable {Γ : Ctx} {t : KademliaKey} {ch : Choice} {c : Call} {n n₀ : KademliaNode} {p : KademliaNode × List Call}
  {rest stack : List Call} {tr : NodeTrace} {m m' : NodeConfig} {fv : Bool} {cb : CallbackSet FindNodesFn} {nf : NodeFinder}

/-! ## The recursion -/

/-- A finder of the lookup between two requests, all of which failed, on a node that is dead. -/
structure Asking (n₀ : KademliaNode) (t : KademliaKey) (fv : Bool) (cb : CallbackSet FindNodesFn) (n : KademliaNode)
    (nf : NodeFinder) : Prop where
  dead : n.dead = true
  base : n.toBaseApplication = n₀.toBaseApplication
  finder : n.nodesBeingFound.find? t = some nf
  findValue : nf.findValue = fv
  callback : nf.findNodesCallback = cb
  waiting : nf.waiting = 0
  contacted : nf.contacted = []

/-- Learning of nodes keeps what the recursion relies on. -/
theorem learn_fields (nf : NodeFinder) (l : List BucketEntry) : (nf.learn l).findValue = nf.findValue ∧
    (nf.learn l).findNodesCallback = nf.findNodesCallback ∧ (nf.learn l).waiting = nf.waiting ∧
    (nf.learn l).contacted = nf.contacted := by
  obtain ⟨added, heq, -⟩ := nf.learn_spec l
  rw [heq]
  exact ⟨rfl, rfl, rfl, rfl⟩

theorem length_uncontacted_learn (nf : NodeFinder) (l : List BucketEntry) :
    (nf.learn l).uncontacted.length ≤ nf.uncontacted.length + l.length := by
  induction l generalizing nf with
  | nil => exact Nat.le_refl _
  | cons entry newNodes ih =>
    rw [NodeFinder.learn]
    split_ifs
    · have h := ih nf
      rw [List.length_cons]
      omega
    · have h := ih { nf with uncontacted := nf.uncontacted ++ [entry], seen := entry.key :: nf.seen : NodeFinder }
      rw [List.length_append, List.length_singleton] at h
      rw [List.length_cons]
      omega

/-- The result of a lookup that reached nobody. -/
theorem result_of_exhausted (rest : List Call) (tr : NodeTrace) (h : Asking n₀ t fv cb n nf) (l : List BucketEntry)
    (hun : (nf.learn l).uncontacted = []) (ch₁ ch₂ : Choice) : ∃ n₁ result c,
      follow (nodeProgram Γ) (fun _ _ => true) ⟨n, .findNodesStep t l :: rest, tr⟩ [.run ch₁, .run ch₂] =
        some ⟨n₁, (cb.fns (!fv)).map (fun fn => .found (!fv) fn result) ++ .eraseFinder t :: rest,
          (c, ch₂) :: (.findNodesStep t l, ch₁) :: tr⟩ ∧
      c.ends = some (t, !fv) ∧ n₁.dead = true ∧ n₁.toBaseApplication = n₀.toBaseApplication ∧ result.nearest = [] ∧
      result.valueFound = false := by
  obtain ⟨hfv, hcb, hwaiting, hcontacted⟩ := learn_fields nf l
  rw [h.findValue] at hfv
  rw [h.callback] at hcb
  rw [h.waiting] at hwaiting
  rw [h.contacted] at hcontacted
  have hstep : n.findNodesStep Γ t l =
      (n.setFinder t (nf.learn l), [if fv then .findNodesFail t else .findNodesFinish t]) := by
    simp only [findNodesStep, h.finder, hun, List.isEmpty_nil, hwaiting, hfv, if_true]
  have hfinder : (n.setFinder t (nf.learn l)).nodesBeingFound.find? t = some (nf.learn l) :=
    LookupAux.find?_setFinder_self _
  cases fv with
  | true =>
    refine ⟨n.setFinder t (nf.learn l), failResult ch₂, .findNodesFail t, ?_, rfl, h.dead, h.base, rfl, rfl⟩
    simp only [follow, step, nodeProgram, Call.isUserCode, exec, hstep, findNodesFail, hfinder, complete, hcb,
      Option.map_some, Option.bind_some, if_true, Bool.false_eq_true, if_false, List.singleton_append, List.append_assoc,
      Bool.not_true]
  | false =>
    have hsort : sortByDistanceTo Γ t (nf.learn l).contacted = [] := by
      rw [hcontacted]
      exact (Γ.sort_perm _ []).eq_nil
    refine ⟨(n.setFinder t (nf.learn l)).setFinder t { nf.learn l with contacted := [] }, finishResult [] ch₂,
      .findNodesFinish t, ?_, rfl, h.dead, h.base, rfl, rfl⟩
    simp only [follow, step, nodeProgram, Call.isUserCode, exec, hstep, findNodesFinish, hfinder, hsort, complete, hcb,
      Option.map_some, Option.bind_some, if_true, Bool.false_eq_true, if_false, List.singleton_append, List.append_assoc,
      Bool.not_false]

/-- One round of the recursion: the next contact is asked, which fails at once. -/
theorem round_of_asking (rest : List Call) (tr : NodeTrace) (h : Asking n₀ t fv cb n nf) (l : List BucketEntry)
    {top : BucketEntry} {uncontacted : List BucketEntry} (hs : sortByDistanceTo Γ t (nf.learn l).uncontacted = top :: uncontacted)
    (ch₁ ch₂ ch₃ : Choice) : ∃ n₁ nf₁ c₂ c₃,
      follow (nodeProgram Γ) (fun _ _ => true) ⟨n, .findNodesStep t l :: rest, tr⟩ [.run ch₁, .run ch₂, .run ch₃] =
        some ⟨n₁, .findNodesStep t [] :: rest, (c₃, ch₃) :: (c₂, ch₂) :: (.findNodesStep t l, ch₁) :: tr⟩ ∧
      c₂.ends = none ∧ c₃.ends = none ∧ Asking n₀ t fv cb n₁ nf₁ ∧ nf₁.uncontacted = uncontacted := by
  obtain ⟨hfv, hcb, hwaiting, hcontacted⟩ := learn_fields nf l
  have hun : (nf.learn l).uncontacted.isEmpty = false := by
    cases hl : (nf.learn l).uncontacted with
    | nil =>
      have hperm : (sortByDistanceTo Γ t (nf.learn l).uncontacted).Perm (nf.learn l).uncontacted := Γ.sort_perm _ _
      rw [hs, hl] at hperm
      cases hperm.eq_nil
    | cons e es => rfl
  have hstep : n.findNodesStep Γ t l =
      (n.setFinder t { nf.learn l with uncontacted := uncontacted, waiting := (nf.learn l).waiting + 1 },
        [.base (.send (n.findNodesRequest Γ t (nf.learn l).findValue top)
          (.of (.findSuccess t top) (.findFailure t top)) 1 2)]) := by
    simp only [findNodesStep, h.finder, hun, hs]
    rfl
  -- the request fails: the contact is dropped and the counter goes back to zero
  refine ⟨((n.setFinder t { nf.learn l with uncontacted := uncontacted, waiting := (nf.learn l).waiting + 1 }).unobserve
      top.address).setFinder t { nf.learn l with uncontacted := uncontacted, waiting := (nf.learn l).waiting + 1 - 1 },
    { nf.learn l with uncontacted := uncontacted, waiting := (nf.learn l).waiting + 1 - 1 },
    .base (.send (n.findNodesRequest Γ t (nf.learn l).findValue top) (.of (.findSuccess t top) (.findFailure t top)) 1 2),
    .base (.callback false (.findFailure t top) (n.findNodesRequest Γ t (nf.learn l).findValue top)), ?_, rfl, rfl, ?_, rfl⟩
  · have hfind : (unobserve (n.setFinder t { nf.learn l with
        uncontacted := uncontacted, waiting := (nf.learn l).waiting + 1 }) top.address).nodesBeingFound.find? t =
          some { nf.learn l with uncontacted := uncontacted, waiting := (nf.learn l).waiting + 1 } :=
      LookupAux.find?_setFinder_self _
    have hdead : (n.setFinder t { nf.learn l with
        uncontacted := uncontacted, waiting := (nf.learn l).waiting + 1 }).toBaseApplication.dead = true := h.dead
    have hbase : ∀ n : KademliaNode, n.setBase n.toBaseApplication = n := fun _ => rfl
    simp only [follow, step, nodeProgram, Call.isUserCode, exec, hstep, execBase, BaseApplication.exec,
      BaseApplication.send_of_dead hdead, CallbackSet.of, List.map_cons, List.map_nil, sendCallback, findFailure, hbase, hfind,
      Option.map_some, Option.bind_some, if_true, Bool.false_eq_true, if_false, List.singleton_append]
  · exact ⟨h.dead, h.base, LookupAux.find?_setFinder_self _, hfv.trans h.findValue, hcb.trans h.callback,
      by rw [hwaiting, h.waiting]; rfl, hcontacted.trans h.contacted⟩

theorem completions_cons_of_none {tr : NodeTrace} (hc : c.ends = none) : completions t ((c, ch) :: tr) = completions t tr := by
  rw [completions, List.countP_cons_of_neg (by simp [hc]), completions]

theorem completions_cons_of_ends {tr : NodeTrace} {ok : Bool} (hc : c.ends = some (t, ok)) :
    completions t ((c, ch) :: tr) = completions t tr + 1 := by
  rw [completions, List.countP_cons_of_pos (by simp [hc]), completions]

/-- The recursion ends after one round for each contact that is left, whatever is drawn, and the callbacks of the lookup come
next. -/
theorem recursion_ends (rest : List Call) (tr : NodeTrace) (k : Nat) (h : Asking n₀ t fv cb n nf) (l : List BucketEntry)
    (hk : (nf.learn l).uncontacted.length = k) (chs : List Choice) (hchs : chs.length = 3 * k + 2) :
    ∃ n₁ result tr₁, follow (nodeProgram Γ) (fun _ _ => true) ⟨n, .findNodesStep t l :: rest, tr⟩ (chs.map .run) =
        some ⟨n₁, (cb.fns (!fv)).map (fun fn => .found (!fv) fn result) ++ .eraseFinder t :: rest, tr₁⟩ ∧
      n₁.dead = true ∧ n₁.toBaseApplication = n₀.toBaseApplication ∧ result.nearest = [] ∧ result.valueFound = false ∧
      completions t tr₁ = completions t tr + 1 := by
  induction k generalizing n nf l tr chs with
  | zero =>
    match chs, hchs with
    | [ch₁, ch₂], _ =>
      obtain ⟨n₁, result, c, hfollow, hends, hdead, hbase, hnearest, hfound⟩ :=
        result_of_exhausted (Γ := Γ) rest tr h l (List.eq_nil_of_length_eq_zero hk) ch₁ ch₂
      refine ⟨n₁, result, _, hfollow, hdead, hbase, hnearest, hfound, ?_⟩
      rw [completions_cons_of_ends hends, completions_cons_of_none rfl]
  | succ k ih =>
    match chs, hchs with
    | ch₁ :: ch₂ :: ch₃ :: chs, hchs =>
      have hperm : (sortByDistanceTo Γ t (nf.learn l).uncontacted).Perm (nf.learn l).uncontacted := Γ.sort_perm _ _
      obtain ⟨top, uncontacted, hs⟩ := List.exists_cons_of_length_eq_add_one (hperm.length_eq.trans hk)
      obtain ⟨n₁, nf₁, c₂, c₃, hfollow, hends₂, hends₃, hasking, hun⟩ :=
        round_of_asking rest tr h l hs ch₁ ch₂ ch₃
      have hk₁ : (nf₁.learn []).uncontacted.length = k := by
        rw [NodeFinder.learn, hun]
        have hlen := hperm.length_eq.trans hk
        rw [hs, List.length_cons] at hlen
        omega
      have hchs₁ : chs.length = 3 * k + 2 := by
        simp only [List.length_cons] at hchs
        omega
      obtain ⟨n₂, result, tr₂, hfollow₂, hdead, hbase, hnearest, hfound, hcount⟩ :=
        ih ((c₃, ch₃) :: (c₂, ch₂) :: (.findNodesStep t l, ch₁) :: tr) hasking [] hk₁ chs hchs₁
      refine ⟨n₂, result, tr₂, ?_, hdead, hbase, hnearest, hfound, ?_⟩
      · exact (follow_append hfollow (chs.map .run)).trans hfollow₂
      · rw [hcount, completions_cons_of_none hends₃, completions_cons_of_none hends₂, completions_cons_of_none rfl]

/-! ## The callbacks -/

/-- What a call that runs on a dead node makes runs on a dead node. -/
theorem makes_runsWhenDead {x : Call} (h : Makes Γ ch n c x) (hc : c.runsWhenDead = true) : x.runsWhenDead = true := by
  cases h with
  | tickDrain | tickOverdue | drainMessage | drainNext | retry | giveUp | giveUpErase | overdueNext | resolve
  | resolveErase | receive | dispatch | tickBase | tickMaintenance | tickRefresh => cases hc
  | _ => rfl

/-- A call that runs on a dead node and does not go on with the lookup for a target makes no call that does, unless it starts
one. -/
theorem makes_pursues {x : Call} (h : Makes Γ ch n c x) (hc : c.runsWhenDead = true) (hpursues : c.pursues t = false)
    (hlookup : ∀ fv cb, c ≠ .lookup fv t cb) : x.pursues t = false := by
  cases h with
  | tickDrain | tickOverdue | drainMessage | drainNext | retry | giveUp | giveUpErase | overdueNext | resolve
  | resolveErase | receive | dispatch | tickBase | tickMaintenance | tickRefresh => cases hc
  | sendDead hd hf =>
    simp only [Call.pursues, CallbackSet.belongsTo, List.any_eq_false, decide_eq_true_eq] at hpursues
    simpa [Call.pursues] using hpursues _ (CallbackSet.mem_all.2 (Or.inr hf))
  | @lookupStart fv t' cb hf =>
    have hne : t' ≠ t := fun ht => hlookup fv cb (ht ▸ rfl)
    simpa [Call.pursues] using hne
  | stepSend hf hs =>
    have hne := of_decide_eq_false hpursues
    simp [Call.pursues, CallbackSet.belongsTo, CallbackSet.all, CallbackSet.of, SendFn.lookupTarget, hne]
  | stepFail hf hfv => exact hpursues
  | stepFinish hf hfv => exact hpursues
  | valueFound hf hv => simpa [Call.pursues, SendFn.lookupTarget] using hpursues
  | replied hf hv => simpa [Call.pursues, SendFn.lookupTarget] using hpursues
  | timedOut hf => simpa [Call.pursues, SendFn.lookupTarget] using hpursues
  | _ => rfl

/-- A call that runs on a dead node leaves its base application alone. -/
theorem exec_runsWhenDead (h : exec Γ ch c n = some p) (hc : c.runsWhenDead = true) (hdead : n.dead = true) :
    p.1.toBaseApplication = n.toBaseApplication := by
  obtain ⟨n', cs⟩ := p
  have hch : Changes n c n' := exec_changes h
  cases hch with
  | @base b drawn h1 h2 =>
    cases b with
    | send m cb mr time =>
      have hdead : n.toBaseApplication.dead = true := hdead
      exact congrArg Prod.fst (BaseApplication.send_of_dead hdead drawn m cb mr time)
    | callback ok fn m => exact absurd rfl (h2 ok fn m)
    | _ => cases hc
  | _ => rfl

/-- A call about a target goes on with its lookup, starts one, or erases its finder. -/
theorem about_cases (h : c.about t = true) :
    c.pursues t = true ∨ (∃ fv cb, c = .lookup fv t cb) ∨ c = .eraseFinder t := by
  unfold Call.about at h
  split at h
  · exact Or.inl (by simpa [Call.pursues, SendFn.lookupTarget] using h)
  · exact Or.inl (by simpa [Call.pursues, SendFn.lookupTarget] using h)
  · obtain rfl := of_decide_eq_true h
    exact Or.inr (Or.inl ⟨_, _, rfl⟩)
  · exact Or.inl h
  · exact Or.inl h
  · exact Or.inl h
  · exact Or.inl h
  · obtain rfl := of_decide_eq_true h
    exact Or.inr (Or.inr rfl)
  · cases h

/-- The callbacks of a lookup run on a dead node, above the rest of the stack: the base application is as before, nothing above
the rest goes on with the lookup, and its finder is there to be erased or gone. -/
structure Completing (n₀ : KademliaNode) (t : KademliaKey) (rest : List Call) (count : Nat) (m : NodeConfig) : Prop where
  dead : m.state.dead = true
  base : m.state.toBaseApplication = n₀.toBaseApplication
  stack : ∃ zs, m.stack = zs ++ rest ∧ (∀ x ∈ zs, x.runsWhenDead = true ∧ x.pursues t = false) ∧
    (.eraseFinder t ∈ zs ∨ m.state.nodesBeingFound.find? t = none)
  completed : completions t m.trace = count

/-- The step of a run that runs a call. -/
theorem completing_exec {count : Nat} {zs : List Call} (hdead : n.dead = true)
    (hbase : n.toBaseApplication = n₀.toBaseApplication)
    (hzs : ∀ x ∈ c :: zs, x.runsWhenDead = true ∧ x.pursues t = false)
    (hfinder : .eraseFinder t ∈ c :: zs ∨ n.nodesBeingFound.find? t = none) (hcount : completions t tr = count)
    (hlookup : ∀ fv cb, c ≠ .lookup fv t cb) (he : exec Γ ch c n = some p) :
    Completing n₀ t rest count ⟨p.1, p.2 ++ (zs ++ rest), (c, ch) :: tr⟩ := by
  obtain ⟨hruns, hpursues⟩ := hzs c List.mem_cons_self
  have hends : c.ends.map (·.1) ≠ some t := by
    intro h
    obtain ⟨⟨t', ok⟩, hc, rfl⟩ := Option.map_eq_some_iff.1 h
    unfold Call.ends at hc
    split at hc <;> cases hc <;> simp [Call.pursues] at hpursues
  refine ⟨?_, ?_, ⟨p.2 ++ zs, (List.append_assoc _ _ _).symm, fun x hx => ?_, ?_⟩, ?_⟩
  · exact (exec_dead he (by rintro rfl; cases hruns)).trans hdead
  · exact (exec_runsWhenDead he hruns hdead).trans hbase
  · rcases List.mem_append.1 hx with hx | hx
    · have hmakes := exec_makes he x hx
      exact ⟨makes_runsWhenDead hmakes hruns, makes_pursues hmakes hruns hpursues hlookup⟩
    · exact hzs x (List.mem_cons_of_mem _ hx)
  · by_cases herase : c = .eraseFinder t
    · subst herase
      cases he
      exact Or.inr (SortedMap.find?_erase_self _ _)
    · rcases hfinder with hmem | hf
      · exact Or.inl (List.mem_append_right _ (List.mem_of_ne_of_mem (Ne.symm herase) hmem))
      · right
        have habout : c.about t = false := by
          cases h : c.about t with
          | false => rfl
          | true =>
            rcases about_cases h with h | ⟨fv, cb, h⟩ | h
            · rw [hpursues] at h
              cases h
            · exact absurd h (hlookup fv cb)
            · exact absurd h herase
        exact (LookupAux.exec_finder he habout).trans hf
  · rw [completions, List.countP_cons_of_neg (by simpa using hends)]
    exact hcount

/-- Outside code calls public functions only, which a dead node runs. -/
theorem runsWhenDead_of_isPublic (hc : c.isPublic = true) : c.runsWhenDead = true ∧ c.pursues t = false := by
  cases c with
  | ping | lookup | store | storeAt | observe => exact ⟨rfl, rfl⟩
  | _ => cases hc

/-- Whatever the callbacks do but start a lookup for the target, until they have returned. -/
theorem completing_of_run {count : Nat} (h : Completing n₀ t rest count m)
    (h' : Run (nodeProgram Γ) (startsNone t rest) m m') : Completing n₀ t rest count m' := by
  refine h'.invariant h ?_
  rintro m₁ l m₂ - ⟨hdead, hbase, ⟨zs, hstack, hzs, hfinder⟩, hcount⟩ ⟨hlen, hok⟩ hs
  obtain ⟨z, zs, rfl⟩ : ∃ z zs', zs = z :: zs' := by
    cases zs with
    | nil =>
      rw [hstack] at hlen
      exact absurd hlen (Nat.lt_irrefl _)
    | cons z zs => exact ⟨z, zs, rfl⟩
  cases hs with
  | run hw he =>
    obtain ⟨rfl, rfl⟩ := List.cons.inj hstack
    exact completing_exec hdead hbase hzs hfinder hcount (by rintro fv cb rfl; exact hok rfl) he
  | event hc => cases hstack
  | @reentry c f rest' n tr hf hc =>
    refine ⟨hdead, hbase, ⟨c :: z :: zs, congrArg (c :: ·) hstack, fun x hx => ?_, ?_⟩, hcount⟩
    · rcases List.mem_cons.1 hx with rfl | hx
      · exact runsWhenDead_of_isPublic hc
      · exact hzs x hx
    · exact hfinder.imp_left (List.mem_cons_of_mem _)
  | @leave f rest' n tr hf =>
    obtain ⟨rfl, rfl⟩ := List.cons.inj hstack
    refine ⟨hdead, hbase, ⟨zs, rfl, fun x hx => hzs x (List.mem_cons_of_mem _ hx), ?_⟩, hcount⟩
    refine hfinder.imp_left (fun hmem => List.mem_of_ne_of_mem ?_ hmem)
    rintro rfl
    cases hf

end DeadAux

open DeadAux

/-- A lookup of a dead node, with any routing table, for a target that has no lookup.
1. Whatever is drawn, the recursion is over after one call of the lookup, three calls for each contact and two to end it, and
   then the callbacks of the caller come next: those of `findNodes` for success with nobody found, those of `findValue` for
   failure.
2. However they go on, as long as they start no lookup for the target: when they have returned, all of them ran, no other lookup
   for the target has ended, its finder is gone, and the base application with its records and queues is as before. -/
theorem dead_lookup {Γ : Ctx} {n : KademliaNode} {t : KademliaKey} (hdead : n.dead = true)
    (hfinder : n.nodesBeingFound.find? t = none) (fv : Bool) (cb : CallbackSet FindNodesFn) (rest : List Call)
    (tr : NodeTrace) : ∃ k ≤ (n.getNearest Γ n.config.k t n.key).length, ∀ chs : List Choice, chs.length = 3 * k + 3 →
      ∃ n₁ result tr₁, follow (nodeProgram Γ) (fun _ _ => true) ⟨n, .lookup fv t cb :: rest, tr⟩ (chs.map .run) =
          some ⟨n₁, (cb.fns (!fv)).map (fun fn => .found (!fv) fn result) ++ .eraseFinder t :: rest, tr₁⟩ ∧
        result.nearest = [] ∧ result.valueFound = false ∧ n₁.toBaseApplication = n.toBaseApplication ∧
        completions t tr₁ = completions t tr + 1 ∧
        ∀ m', Run (nodeProgram Γ) (startsNone t rest)
            ⟨n₁, (cb.fns (!fv)).map (fun fn => .found (!fv) fn result) ++ .eraseFinder t :: rest, tr₁⟩ m' → m'.stack = rest →
          (∃ new, m'.trace = new ++ tr₁ ∧
            ((cb.fns (!fv)).map (fun fn => Call.found (!fv) fn result)).Sublist (new.reverse.map (·.1))) ∧
          completions t m'.trace = completions t tr + 1 ∧ m'.state.nodesBeingFound.find? t = none ∧
          m'.state.toBaseApplication = n.toBaseApplication := by
  have hasking : Asking n t fv cb (n.setFinder t (NodeFinder.new fv t cb)) (NodeFinder.new fv t cb) :=
    ⟨hdead, rfl, LookupAux.find?_setFinder_self _, rfl, rfl, rfl, rfl⟩
  have hle : ((NodeFinder.new fv t cb).learn (n.getNearest Γ n.config.k t n.key)).uncontacted.length ≤
      (n.getNearest Γ n.config.k t n.key).length :=
    (length_uncontacted_learn _ _).trans (Nat.zero_add _).le
  refine ⟨_, hle, fun chs hchs => ?_⟩
  match chs, hchs with
  | ch :: chs, hchs =>
    obtain ⟨n₁, result, tr₁, hfollow, hdead₁, hbase, hnearest, hfound, hcount⟩ :=
      recursion_ends (Γ := Γ) rest ((.lookup fv t cb, ch) :: tr) _ hasking (n.getNearest Γ n.config.k t n.key) rfl chs
        (by simpa using hchs)
    rw [completions_cons_of_none rfl] at hcount
    refine ⟨n₁, result, tr₁, ?_, hnearest, hfound, hbase, hcount, fun m' hrun hreturned => ?_⟩
    · simp only [List.map_cons, follow, if_true, step, nodeProgram, Call.isUserCode, exec, lookup, hfinder, Option.map_some,
        Option.bind_some, Bool.false_eq_true, if_false]
      exact hfollow
    · have hcalls : ∀ x ∈ (cb.fns (!fv)).map (fun fn => Call.found (!fv) fn result) ++ [.eraseFinder t],
          x.runsWhenDead = true ∧ x.pursues t = false ∧ x.isUserCode = false := by
        intro x hx
        rcases List.mem_append.1 hx with hx | hx
        · obtain ⟨fn, -, rfl⟩ := List.mem_map.1 hx
          exact ⟨rfl, rfl, rfl⟩
        · obtain rfl := List.mem_singleton.1 hx
          exact ⟨rfl, rfl, rfl⟩
      have hstack : (cb.fns (!fv)).map (fun fn => Call.found (!fv) fn result) ++ .eraseFinder t :: rest =
          (cb.fns (!fv)).map (fun fn => Call.found (!fv) fn result) ++ [.eraseFinder t] ++ rest :=
        List.append_cons _ _ _
      have hcompleting : Completing n t rest (completions t tr + 1)
          ⟨n₁, (cb.fns (!fv)).map (fun fn => .found (!fv) fn result) ++ .eraseFinder t :: rest, tr₁⟩ :=
        ⟨hdead₁, hbase, ⟨_, hstack, fun x hx => ⟨(hcalls x hx).1, (hcalls x hx).2.1⟩,
          Or.inl (List.mem_append_right _ List.mem_cons_self)⟩, hcount⟩
      obtain ⟨-, hbase', ⟨zs, hzs, -, hgone⟩, hcount'⟩ := completing_of_run hcompleting hrun
      obtain rfl : zs = [] := List.self_eq_append_left.1 (hreturned.symm.trans hzs)
      obtain ⟨new, htrace, hran⟩ := hrun.ran_of_returned (fun m l h => h.1) (fun x hx => (hcalls x hx).2.2) hstack hreturned
      refine ⟨⟨new, htrace, ?_⟩, hcount', ?_, hbase'⟩
      · exact (List.sublist_append_left _ _).trans hran
      · exact hgone.resolve_left List.not_mem_nil

/-- A node that died when it knew of two others. -/
def deadNode : KademliaNode :=
  (({ KademliaNode.init ⟨20, 10000, 1000⟩ .zero 700 with dead := true } : KademliaNode).setBucket ⟨0, by decide⟩
    [⟨.starting 128, 5, 0⟩]).setBucket ⟨6, by decide⟩ [⟨.starting 3, 9, 0⟩]

/-- Both nodes that it knew of are asked, in vain, before the value is given up. -/
example : (follow (nodeProgram .reference) (fun _ _ => true)
    ⟨deadNode, [.lookup true (.starting 3) (.of (.user 1) (.user 2))], []⟩ (runs 1 9)).any (fun m =>
      m.stack = [.found false (.user 2) (failResult ⟨9, 0, false, 0⟩), .eraseFinder (.starting 3)] &&
        completions (.starting 3) m.trace = 1 &&
        (List.finRange keyLenBits).all (fun i => (m.state.buckets i).isEmpty)) = true := by
  decide +kernel

theorem dead_lookup_sample : ∃ k ≤ 2, ∀ chs : List Choice, chs.length = 3 * k + 3 → ∃ m,
    follow (nodeProgram .reference) (fun _ _ => true)
        ⟨deadNode, [.lookup true (.starting 3) (.of (.user 1) (.user 2))], []⟩ (chs.map .run) = some m ∧
      completions (.starting 3) m.trace = 1 ∧ m.state.toBaseApplication = deadNode.toBaseApplication := by
  obtain ⟨k, hk, h⟩ :=
    dead_lookup (Γ := .reference) (n := deadNode) (t := .starting 3) rfl rfl true (.of (.user 1) (.user 2)) [] []
  refine ⟨k, hk.trans (by decide +kernel), fun chs hchs => ?_⟩
  obtain ⟨n₁, result, tr₁, hfollow, -, -, hbase, hcount, -⟩ := h chs hchs
  exact ⟨_, hfollow, hcount, hbase⟩

end Dhtsim
