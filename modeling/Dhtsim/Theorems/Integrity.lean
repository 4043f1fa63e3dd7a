import Dhtsim.Lemmas.Traffic
import Dhtsim.Lemmas.Callers
import Dhtsim.Model.Outside

/-!
# The values of a network

A value is found under its hash, and stays as it is. What a lookup delivers was in the table of the node that replied: the reply
is the answer to the request of the lookup, by its tag, and so to a request for the target.
-/

namespace Dhtsim

open CallMachine KademliaNode

/-- The steps of a network after which node `i` has an entry for the key. -/
def keepsEntry (Γ : Ctx) {N : Nat} (i : Fin N) (k : KademliaKey) (m : NetworkConfig N) (l : NetworkLabel N) : Prop :=
  ∀ m', step (networkProgram Γ N) m l = some m' → (m'.state.applications i).table.contains k = true

/-- Node `i` got a reply to its request for `t`: at an earlier point of the run a node handled the request and answered it with
`msg`, and it had the value `v` in its table under `t`; and later the reply was given to the lookup, which read the value. -/
def GotValue (Γ : Ctx) {N : Nat} (ok : NetworkConfig N → NetworkLabel N → Prop) (m₀ m : NetworkConfig N) (i : Fin N)
    (t : KademliaKey) (v : List UInt8) : Prop :=
  ∃ m₁ m₂ : NetworkConfig N, Run (networkProgram Γ N) ok m₀ m₁ ∧ Run (networkProgram Γ N) ok m₁ m₂ ∧
    Run (networkProgram Γ N) ok m₂ m ∧ ∃ q j fm rest₁ e top msg ch rest₂,
      q ∈ requests m₂.trace ∧ q.requester = i ∧ m₁.stack = .app j (.handleFindNodes q.message fm) :: rest₁ ∧
        (m₁.state.applications j).table.find? t = some e ∧ e.value = v ∧
        msg = (m₁.state.applications j).findNodesReplyTo Γ q.message fm ∧
        m₂.stack = .app i (.base (.callback true (.findSuccess t top) msg)) :: rest₂ ∧ (readFindNodes Γ ch msg).value = v

namespace IntegrityAux

variable {N : Nat} {Γ : Ctx} {i : Fin N} {t k : KademliaKey} {v : List UInt8} {m₀ m m' : NetworkConfig N}
  {ok : NetworkConfig N → NetworkLabel N → Prop}

/-- A table holds values under their hashes. -/
theorem exec_hashed {ch : Choice} {c : Call} {n : KademliaNode} {p : KademliaNode × List Call}
    (h : KademliaNode.exec Γ ch c n = some p) (hn : ∀ k e, n.table.find? k = some e → Γ.sha1 e.value = k) :
    ∀ k e, p.1.table.find? k = some e → Γ.sha1 e.value = k := by
  intro k e hf
  rcases exec_table h with he | ⟨m, sm, rfl, he⟩ | ⟨rfl, he⟩
  · exact hn k e (he ▸ hf)
  · rw [he, find?_storeValue] at hf
    split at hf
    · rename_i hk
      cases hold : n.table.find? (Γ.sha1 sm.value) with
      | none =>
        rw [hold] at hf
        cases hf
        exact hk.symm
      | some old =>
        rw [hold] at hf
        cases hf
        exact (hn _ old hold).trans hk.symm
    · exact hn k e hf
  · rw [he, SortedMap.find?_filter, Option.filter_eq_some_iff] at hf
    exact hn k e hf.1

theorem hashed_of_run {config : Config} {key : KademliaKey} {offset : Time} {ok : NodeConfig → NodeLabel → Prop}
    {m : NodeConfig} (h : Run (nodeProgram Γ) ok (startNode config key offset) m) :
    ∀ k e, m.state.table.find? k = some e → Γ.sha1 e.value = k := by
  refine (h.invariant_stack (S := fun n => ∀ k e, n.table.find? k = some e → Γ.sha1 e.value = k) (C := fun _ _ => True)
    ⟨fun k e hf => ?_, fun _ _ => trivial⟩ ?_ (fun _ _ _ _ _ _ _ => trivial)).1
  · simp [startNode, KademliaNode.init] at hf
  · intro ch c rest n tr n' cs hn _ _ _ he
    exact ⟨exec_hashed he hn, fun _ _ => trivial, fun _ _ => trivial⟩

/-- A step that leaves an entry leaves its value. -/
theorem exec_value {ch : Choice} {c : Call} {n : KademliaNode} {p : KademliaNode × List Call} {e e' : TableEntry}
    (h : KademliaNode.exec Γ ch c n = some p) (hf : n.table.find? k = some e) (hf' : p.1.table.find? k = some e') :
    e'.value = e.value := by
  rcases exec_table h with he | ⟨m, sm, rfl, he⟩ | ⟨rfl, he⟩
  · rw [he, hf] at hf'
    cases hf'
    rfl
  · rw [he, find?_storeValue] at hf'
    split at hf'
    · rename_i hk
      rw [← hk, hf] at hf'
      cases hf'
      rfl
    · rw [hf] at hf'
      cases hf'
      rfl
  · rw [he, SortedMap.find?_filter, hf, Option.filter_eq_some_iff] at hf'
    cases hf'.1
    rfl

/-- The table of a node changes in a call of the node only. -/
theorem table_step {l : NetworkLabel N} (hs : Step (networkProgram Γ N) m l m') (i : Fin N) :
    (m'.state.applications i).table = (m.state.applications i).table ∨ ∃ ch c p,
      KademliaNode.exec Γ ch c (m.state.applications i) = some p ∧ (m'.state.applications i).table = p.1.table := by
  cases hs with
  | run hw he =>
    rcases CentralizedNetwork.applications_cases he i with h | ⟨c, q, -, h, hi⟩ | ⟨_, -, hi⟩ | ⟨_, -, hi⟩
    · exact Or.inl (congrArg KademliaNode.table h)
    · exact Or.inr ⟨_, c, q, h, congrArg KademliaNode.table hi⟩
    · exact Or.inl ((congrArg KademliaNode.table hi).trans rfl)
    · exact Or.inl ((congrArg KademliaNode.table hi).trans rfl)
  | _ => exact Or.inl rfl

/-- As long as an entry stays, its value does. -/
theorem value_stays {e : TableEntry} (h : Run (networkProgram Γ N) (keepsEntry Γ i k) m m')
    (hf : (m.state.applications i).table.find? k = some e) :
    ∃ e', (m'.state.applications i).table.find? k = some e' ∧ e'.value = e.value := by
  refine h.invariant (I := fun m => ∃ e', (m.state.applications i).table.find? k = some e' ∧ e'.value = e.value)
    ⟨e, hf, rfl⟩ ?_
  rintro m₁ l m₂ - ⟨e₁, hf₁, hv₁⟩ hkeeps hs
  obtain ⟨e₂, hf₂⟩ := Option.isSome_iff_exists.1 (hkeeps m₂ hs.step_eq)
  refine ⟨e₂, hf₂, ?_⟩
  rcases table_step hs i with ht | ⟨ch, c, p, hexec, ht⟩
  · rw [ht, hf₁] at hf₂
    cases hf₂
    exact hv₁
  · exact (exec_value hexec hf₁ (ht ▸ hf₂)).trans hv₁

theorem gotValue_mono (h : GotValue Γ ok m₀ m i t v) (hr : Run (networkProgram Γ N) ok m m') : GotValue Γ ok m₀ m' i t v := by
  obtain ⟨m₁, m₂, h₁, h₂, h₃, h⟩ := h
  exact ⟨m₁, m₂, h₁, h₂, h₃.trans hr, h⟩

/-- What a node answers to a request for `t`, when it answers with a value: it has the value in its table. -/
theorem value_of_reply {n : KademliaNode} {fm : FindNodesMessage} (h : (n.findNodesReply Γ fm).valueFound = true) :
    ∃ e, n.table.find? fm.target = some e ∧ (n.findNodesReply Γ fm).value = e.value := by
  unfold findNodesReply at h ⊢
  split at h
  · rename_i e hf hfv
    simp only [hf]
    exact ⟨e, rfl, rfl⟩
  · cases h

/-- A reply with a value that is given to a lookup is the answer of a node that has the value. -/
theorem gotValue_of_callback (hΓ : Γ.Decodes) (hok : ∀ m l, ok m l → freshNetworkTags m l = true)
    {config : Fin N → Config} {key : Fin N → KademliaKey} {offset : Fin N → Time} {limit : UInt32} {top : BucketEntry}
    {msg : Message UInt32} {rest : List (NetworkCall N)} {ch : Choice}
    (h : Run (networkProgram Γ N) ok (startNetwork config key offset limit) m)
    (hstack : m.stack = .app i (.base (.callback true (.findSuccess t top) msg)) :: rest)
    (hv : (readFindNodes Γ ch msg).valueFound = true) :
    GotValue Γ ok (startNetwork config key offset limit) m i t (readFindNodes Γ ch msg).value := by
  obtain ⟨q, hq, hi, req, htarget, -, -, -, hfound, hreads, hmsg⟩ :=
    reply_of_callback hΓ hok h (hstack ▸ List.mem_cons_self)
  rcases hmsg with rfl | ⟨j, m₁, rest₁, h₁, h₂, hstack₁, rfl⟩
  · -- the request itself carries no value
    rw [hreads, hfound] at hv
    cases hv
  · have hreply : readFindNodes Γ ch ((m₁.state.applications j).findNodesReplyTo Γ q.message req) =
        (m₁.state.applications j).findNodesReply Γ req := hΓ.findNodes _ _
    rw [hreply] at hv ⊢
    obtain ⟨e, hf, hvalue⟩ := value_of_reply hv
    refine ⟨m₁, m, h₁, h₂, .refl, q, j, req, rest₁, e, top, _, ch, rest, hq, hi, hstack₁, htarget ▸ hf, hvalue.symm, rfl,
      hstack, ?_⟩
    rw [hreply]

/-- A lookup that ends with a value got it from a node. -/
theorem gotValue_of_run (hΓ : Γ.Decodes) (hok : ∀ m l, ok m l → freshNetworkTags m l = true)
    {config : Fin N → Config} {key : Fin N → KademliaKey} {offset : Fin N → Time} {limit : UInt32}
    (h : Run (networkProgram Γ N) ok (startNetwork config key offset limit) m)
    (hmem : .app i (.findValueFinish t v) ∈ m.stack) : GotValue Γ ok (startNetwork config key offset limit) m i t v := by
  refine inside_of_run (C := fun m i c => ∀ t v, c = .findValueFinish t v →
    GotValue Γ ok (startNetwork config key offset limit) m i t v) h ?_ ?_ ?_ i _ hmem t v rfl
  · exact fun m m' i c hr hC t v hc => gotValue_mono (hC t v hc) hr
  · rintro m i c hc t v rfl
    cases hc
  · rintro m i c z rest ch hr hstack hz t v rfl
    cases hz with
    | @valueFound success _ top msg nf hf hv =>
      obtain rfl := success_of_findSuccess
        ((fromRequests_of_run (run_node hr i)).2 _ (mem_stack_nodeConfig (hstack ▸ List.mem_cons_self)))
      exact gotValue_of_callback hΓ hok hr hstack (Bool.and_eq_true_iff.1 hv).2

end IntegrityAux

open IntegrityAux

/-- The values of a network of nodes, in every run in which no tag is drawn twice, in three parts.
1. Every entry of every table is under the hash of its value.
2. As long as a node has an entry for a key, its value stays the same.
3. Whenever a lookup of a node for a target ends with a value, the value hashes to the target, and it was in the table of the
   node that replied, under the target, when that node answered the request of the lookup. -/
theorem value_integrity {N : Nat} {Γ : Ctx} (hΓ : Γ.Decodes) {config : Fin N → Config} {key : Fin N → KademliaKey}
    {offset : Fin N → Time} {limit : UInt32} {m : NetworkConfig N}
    (h : Run (networkProgram Γ N) (fun m l => freshNetworkTags m l = true) (startNetwork config key offset limit) m) :
    (∀ i k e, (m.state.applications i).table.find? k = some e → Γ.sha1 e.value = k) ∧
      (∀ i k e m', Run (networkProgram Γ N) (keepsEntry Γ i k) m m' → (m.state.applications i).table.find? k = some e →
        ∃ e', (m'.state.applications i).table.find? k = some e' ∧ e'.value = e.value) ∧
      ∀ i c rest t success ch m', m.stack = .app i c :: rest → c.ends = some (t, success) →
        step (networkProgram Γ N) m (.run ch) = some m' → ∃ nf result,
          m'.stack = (complete nf t success result).map (.app i) ++ rest ∧ (result.valueFound = true →
            Γ.sha1 result.value = t ∧ GotValue Γ (fun m l => freshNetworkTags m l = true)
              (startNetwork config key offset limit) m i t result.value) := by
  refine ⟨fun i => hashed_of_run (run_node h i), fun i k e m' hrun hf => value_stays hrun hf, ?_⟩
  intro i c rest t success ch m' hstack hc hs
  obtain ⟨w, stack, tr⟩ := m
  simp only at hstack
  subst hstack
  cases step_of_eq_some hs with
  | run hw he =>
    obtain ⟨q, hq, heq⟩ := CentralizedNetwork.exec_app he
    cases heq
    unfold Call.ends at hc
    split at hc
    · cases hc
      obtain ⟨-, nf, -, hcs⟩ := findNodesFail_eq hq
      exact ⟨nf, _, by rw [hcs], fun hv => by cases hv⟩
    · cases hc
      obtain ⟨nf, -, -, hcs⟩ := findNodesFinish_eq hq
      exact ⟨nf, _, by rw [hcs], fun hv => by cases hv⟩
    · cases hc
      obtain ⟨-, nf, -, hcs⟩ := findValueFinish_eq hq
      refine ⟨nf, _, by rw [hcs], fun _ => ?_⟩
      have hgot := gotValue_of_run hΓ (fun _ _ h => h) h List.mem_cons_self
      refine ⟨?_, hgot⟩
      obtain ⟨m₁, m₂, h₁, -, -, q, j, fm, rest₁, e, top, msg, ch', rest₂, -, -, -, hf, hv, -⟩ := hgot
      have hhash : Γ.sha1 e.value = _ := hashed_of_run (run_node h₁ j) _ _ hf
      rw [hv] at hhash
      exact hhash
    · cases hc

/-- A node stores a value at another, and fetches it. -/
def storeAndFetch {N : Nat} (i j : Fin N) : List (NetworkLabel N) :=
  [.enter (.add i)] ++ networkRuns 5 1 9 ++ [.enter (.add j)] ++ networkRuns 7 10 9 ++
    [.enter (.app i (.observe 7 (.starting 128)))] ++ networkRuns 0 19 1 ++
    [.enter (.app i (.storeAt 7 [1, 2, 3]))] ++ networkRuns 0 20 2 ++
    [.enter (.app i (fetch (sha1 [1, 2, 3]) (.of 3 4)))] ++ networkRuns 0 22 3 ++ [.enter .tick] ++ networkRuns 0 25 52 ++
    [.enter .tick] ++ networkRuns 0 77 14

/-- The fetch ends with the value, which was in the table of the other node. -/
theorem value_integrity_sample : ∃ (m : NetworkConfig 2) (rest : List (NetworkCall 2)),
    m.stack = .app 0 (.findValueFinish (sha1 [1, 2, 3]) [1, 2, 3]) :: rest ∧
      GotValue .reference (fun m l => freshNetworkTags m l = true) (sampleNetwork 1024) m 0 (sha1 [1, 2, 3]) [1, 2, 3] := by
  obtain ⟨m, hr, hm⟩ := exists_run_of_follow (networkProgram .reference 2) freshNetworkTags (sampleNetwork 1024)
    (storeAndFetch 0 1) (fun m : NetworkConfig 2 =>
      decide (m.stack.head? = some (.app 0 (.findValueFinish (sha1 [1, 2, 3]) [1, 2, 3]))) &&
        (step (networkProgram .reference 2) m (.run ⟨⟨0, 0, false, 0⟩, []⟩)).any (fun m' : NetworkConfig 2 =>
          decide (m'.stack.head? = some (.app 0 (.found true (.fetchSuccess (.of 3 4))
            (valueResult [1, 2, 3] ⟨0, 0, false, 0⟩)))))) (by decide +kernel)
  simp only [Bool.and_eq_true, decide_eq_true_eq, Option.any_eq_true] at hm
  obtain ⟨hhead, m', hm', hnext⟩ := hm
  obtain ⟨rest, hstack⟩ : ∃ rest, m.stack = .app 0 (.findValueFinish (sha1 [1, 2, 3]) [1, 2, 3]) :: rest :=
    List.head?_eq_some_iff.1 hhead
  obtain ⟨nf, result, hcs, hv⟩ := (value_integrity Ctx.reference_decodes hr).2.2 0 _ rest _ true _ m' hstack rfl hm'
  -- the callback that runs next shows the result
  have hresult : result = valueResult [1, 2, 3] ⟨0, 0, false, 0⟩ := by
    rw [hcs, complete] at hnext
    cases hfns : nf.findNodesCallback.fns true with
    | nil => simp [hfns] at hnext
    | cons fn fns =>
      simp only [hfns, List.map_cons, List.cons_append, List.head?_cons, Option.some.injEq, NetworkCall.app.injEq,
        Call.found.injEq, true_and] at hnext
      exact hnext.2
  subst hresult
  exact ⟨m, rest, hstack, (hv rfl).2⟩

end Dhtsim
