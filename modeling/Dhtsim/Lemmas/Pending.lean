import Dhtsim.Lemmas.Requests
import Mathlib.Data.List.Pairwise

/-!
# Requests that are pending

A request passes from the call that sends it to its record, and from there to the callback that ends it, without being lost or
doubled: this is where the tags must differ, and where it matters that nothing looks at the records while the callbacks of one
of them run.
-/

namespace Dhtsim

open CallMachine

/-! ## The order of the stack -/

/-- The calls that look at the records, or lead to such a call. -/
def Call.isOuter : Call → Bool
  | .tick _ => true
  | .base (.tick _) => true
  | .base .drain => true
  | .base (.overdue _) => true
  | .base (.handleMessage _) => true
  | .base (.receive _) => true
  | .base (.erase _) => true
  | _ => false

/-- The record that a call erases. -/
def Call.erases : Call → Option Tag
  | .base (.erase tag) => some tag
  | _ => none

/-- The records that are about to be erased, as their callbacks run. -/
def erasing (stack : List Call) : List Tag := stack.filterMap Call.erases

/-- Nothing on the stack looks at the records before a record is erased. -/
def Disciplined (stack : List Call) : Prop := stack.Pairwise (fun x y => x.isOuter = true → y.erases = none)

namespace KademliaNode

variable {Γ : Ctx} {ch : Choice} {c : Call} {n : KademliaNode} {p : KademliaNode × List Call} {stack rest : List Call}

theorem erasing_eq_nil_of_outer (h : Disciplined (c :: rest)) (hc : c.isOuter = true) : erasing rest = [] :=
  List.filterMap_eq_nil_iff.2 (fun y hy => (List.pairwise_cons.1 h).1 y hy hc)

/-- A call that does not look at the records makes none that does. -/
theorem makes_isOuter {x : Call} (h : Makes Γ ch n c x) (hc : c.isOuter = false) : x.isOuter = false := by
  cases h with
  | tickDrain | tickOverdue | drainMessage | drainNext | retry | giveUp | giveUpErase | overdueNext | receive | resolve |
    resolveErase | tickBase => cases hc
  | _ => rfl

/-- Records are erased by the loop over the records and by the arrival of a reply. -/
theorem makes_erases {x : Call} (h : Makes Γ ch n c x) (hx : x.erases ≠ none) :
    (∃ after, c = .base (.overdue after)) ∨ ∃ m, c = .base (.receive m) := by
  cases h with
  | giveUpErase hn hr => exact Or.inl ⟨_, rfl⟩
  | resolveErase hf => exact Or.inr ⟨_, rfl⟩
  | _ => exact absurd rfl hx

/-- What comes in from outside erases no record. -/
theorem erases_of_isEvent (hc : c.isEvent = true) : c.erases = none := by
  cases c with
  | base b =>
    cases b with
    | erase tag => cases hc
    | _ => rfl
  | _ => rfl

/-- The loop over the records goes on past the record it looked at, after what it did about it. -/
theorem overdue_cases (Γ : Ctx) (ch : Choice) (after : Option Tag) (n : KademliaNode) :
    (n.callbacks.next after = none ∧ n.execBase Γ ch (.overdue after) = (n, [])) ∨
      ∃ tag r, n.callbacks.next after = some (tag, r) ∧
        (n.execBase Γ ch (.overdue after) = (n, [.base (.overdue (some tag))]) ∨
          n.execBase Γ ch (.overdue after) = (n, [.base (.attemptRetry tag), .base (.overdue (some tag))]) ∨
          n.execBase Γ ch (.overdue after) = (n, r.callback.failureFns.map (fun fn => .base (.callback false fn r.message)) ++
            [.base (.erase tag), .base (.overdue (some tag))])) := by
  cases hn : n.callbacks.next after with
  | none =>
    left
    simp [execBase, BaseApplication.exec, hn, setBase]
  | some e =>
    obtain ⟨tag, r⟩ := e
    refine Or.inr ⟨tag, r, rfl, ?_⟩
    by_cases hdue : r.nextSend ≤ n.epoch
    · cases hr : r.needsRetry with
      | true => exact Or.inr (Or.inl (by simp [execBase, BaseApplication.exec, hn, hdue, hr, setBase]))
      | false => exact Or.inr (Or.inr (by simp [execBase, BaseApplication.exec, hn, hdue, hr, setBase]))
    · exact Or.inl (by simp [execBase, BaseApplication.exec, hn, hdue, setBase])

/-- A message runs the success callbacks of the record with its tag. -/
theorem receive_cases (Γ : Ctx) (ch : Choice) (m : Message UInt32) (n : KademliaNode) :
    (n.callbacks.find? m.tag = none ∧ n.execBase Γ ch (.receive m) = (n, [])) ∨
      ∃ r, n.callbacks.find? m.tag = some r ∧ n.execBase Γ ch (.receive m) =
        (n, r.callback.successFns.map (fun fn => .base (.callback true fn m)) ++ [.base (.erase m.tag)]) := by
  cases hf : n.callbacks.find? m.tag with
  | none => exact Or.inl ⟨rfl, by simp [execBase, BaseApplication.exec, hf, setBase]⟩
  | some r => exact Or.inr ⟨r, rfl, by simp [execBase, BaseApplication.exec, hf, setBase]⟩

/-- The calls that a call makes are in order among themselves. -/
theorem exec_disciplined (h : exec Γ ch c n = some p) : Disciplined p.2 := by
  have hcallbacks : ∀ (ok : Bool) (fns : List SendFn) (m : Message UInt32) (tail : List Call), Disciplined tail →
      Disciplined (fns.map (fun fn => .base (.callback ok fn m)) ++ tail) := by
    intro ok fns m tail ht
    refine List.pairwise_append.2 ⟨List.pairwise_map.2 (List.pairwise_of_forall (fun _ _ _ => rfl)), ht, ?_⟩
    intro x hx y _ hout
    obtain ⟨fn, -, rfl⟩ := List.mem_map.1 hx
    cases hout
  by_cases hc : (∃ after, c = .base (.overdue after)) ∨ ∃ m, c = .base (.receive m)
  · rcases hc with ⟨after, rfl⟩ | ⟨m, rfl⟩
    · cases h
      rcases overdue_cases Γ ch after n with ⟨-, he⟩ | ⟨tag, r, -, he | he | he⟩
      · rw [he]; exact List.Pairwise.nil
      · rw [he]; exact List.pairwise_singleton _ _
      · rw [he]; exact List.pairwise_pair.2 (fun _ => rfl)
      · rw [he]; exact hcallbacks _ _ _ _ (List.pairwise_pair.2 (fun _ => rfl))
    · cases h
      rcases receive_cases Γ ch m n with ⟨-, he⟩ | ⟨r, -, he⟩
      · rw [he]; exact List.Pairwise.nil
      · rw [he]; exact hcallbacks _ _ _ _ (List.pairwise_singleton _ _)
  · refine List.pairwise_of_forall_mem_list ?_
    intro x _ y hy _
    by_contra hne
    exact hc (makes_erases (exec_makes h y hy) hne)

theorem disciplined_step (h : exec Γ ch c n = some p) (hd : Disciplined (c :: rest)) : Disciplined (p.2 ++ rest) := by
  obtain ⟨hc, hrest⟩ := List.pairwise_cons.1 hd
  refine List.pairwise_append.2 ⟨exec_disciplined h, hrest, ?_⟩
  intro x hx y hy hout
  by_contra hne
  have hcin : c.isOuter = false := by
    cases hco : c.isOuter with
    | false => rfl
    | true => exact absurd (hc y hy hco) hne
  rw [makes_isOuter (exec_makes h x hx) hcin] at hout
  cases hout

/-- What outside code calls does not look at the records. -/
theorem disciplined_reentry (hc : c.isPublic = true) (hd : Disciplined stack) : Disciplined (c :: stack) := by
  refine List.pairwise_cons.2 ⟨fun y _ hout => ?_, hd⟩
  cases c with
  | base b => cases hc
  | tick t => cases hc
  | _ => cases hout

theorem disciplined_of_run {config : Config} {key : KademliaKey} {offset : Time} {ok : NodeConfig → NodeLabel → Prop}
    {m : NodeConfig} (h : Run (nodeProgram Γ) ok (startNode config key offset) m) : Disciplined m.stack := by
  refine h.invariant (I := fun m => Disciplined m.stack) List.Pairwise.nil ?_
  intro m l m' _ hd _ hs
  cases hs with
  | run hw he => exact disciplined_step he hd
  | event hc => exact List.pairwise_singleton _ _
  | reentry hf hc => exact disciplined_reentry hc hd
  | leave hf => exact (List.pairwise_cons.1 hd).2

/-! ## Tags -/

/-- A node is dead when `die` was called. -/
theorem dead_iff_of_run {config : Config} {key : KademliaKey} {offset : Time} {ok : NodeConfig → NodeLabel → Prop}
    {m : NodeConfig} (h : Run (nodeProgram Γ) ok (startNode config key offset) m) :
    m.state.dead = false ↔ ∀ e ∈ m.trace, e.1 ≠ .base .die := by
  refine h.invariant (I := fun m => m.state.dead = false ↔ ∀ e ∈ m.trace, e.1 ≠ .base .die) (by simp [startNode, init]) ?_
  intro m l m' _ hI _ hs
  cases hs with
  | @run ch c rest n tr n' cs hw he =>
    simp only [List.mem_cons, forall_eq_or_imp] at hI ⊢
    by_cases hc : c = .base .die
    · subst hc
      cases he
      simp [BaseApplication.exec, setBase]
    · rw [show n'.dead = n.dead from exec_dead he hc, hI]
      exact ⟨fun h => ⟨hc, h⟩, fun h => h.2⟩
  | event hc => exact hI
  | reentry hf hc => exact hI
  | leave hf => exact hI

/-- Drawing a tag adds it to the tags drawn, and nothing removes one. -/
theorem drawnTags_subset (e : Call × Choice) (tr : NodeTrace) : drawnTags tr ⊆ drawnTags (e :: tr) := by
  obtain ⟨c, ch⟩ := e
  intro tag ht
  unfold drawnTags
  split
  · rename_i heq
    cases heq
  · rename_i heq
    cases heq
    split
    · exact List.mem_cons_of_mem _ ht
    · exact ht
  · rename_i heq
    cases heq
    exact ht

/-- The tag of every record is one that was drawn. -/
theorem tags_drawn_of_run {config : Config} {key : KademliaKey} {offset : Time} {ok : NodeConfig → NodeLabel → Prop}
    {m : NodeConfig} (h : Run (nodeProgram Γ) ok (startNode config key offset) m) :
    (∀ e ∈ m.state.callbacks.entries, e.1 ∈ drawnTags m.trace) ∧ ∀ tag ∈ erasing m.stack, tag ∈ drawnTags m.trace := by
  refine h.invariant (I := fun m => (∀ e ∈ m.state.callbacks.entries, e.1 ∈ drawnTags m.trace) ∧
    ∀ tag ∈ erasing m.stack, tag ∈ drawnTags m.trace) ⟨by simp [startNode, init], by simp [startNode, erasing]⟩ ?_
  intro m l m' hr hI _ hs
  cases hs with
  | @run ch c rest n tr n' cs hw he =>
    obtain ⟨hrec, herase⟩ := hI
    have hsub := drawnTags_subset (c, ch) tr
    refine ⟨?_, ?_⟩
    · rintro ⟨tag, r'⟩ hmem
      rcases exec_callbacks he with h | ⟨msg, cb, mr, t, rfl, hlive, hcb, h⟩ | ⟨tag', -, h⟩ | ⟨tag', r, -, hf, h⟩
      · exact hsub (hrec _ (h ▸ hmem))
      · rw [h, SortedMap.mem_entries_insert] at hmem
        rcases hmem with hmem | ⟨hmem, -⟩
        · cases hmem
          rcases (fromRequests_of_run hr).2 _ List.mem_cons_self with rfl | ⟨-, ht⟩
          · cases hcb
          · have hnever := (dead_iff_of_run hr).1 hlive
            simp only [Message.tagged, ht, if_true]
            rw [drawnTags, if_pos ⟨ht, hnever⟩]
            exact List.mem_cons_self
        · exact hsub (hrec _ hmem)
      · rw [h, SortedMap.mem_entries_erase] at hmem
        exact hsub (hrec _ hmem.1)
      · rw [h, SortedMap.mem_entries_insert] at hmem
        rcases hmem with hmem | ⟨hmem, -⟩
        · cases hmem
          have hmem := hrec _ (SortedMap.find?_eq_some_iff.1 hf)
          exact hsub hmem
        · exact hsub (hrec _ hmem)
    · intro tag htag
      obtain ⟨x, hx, hxe⟩ := List.mem_filterMap.1 htag
      rcases List.mem_append.1 hx with hx | hx
      · cases exec_makes he x hx with
        | giveUpErase hnext hr => cases hxe; exact hsub (hrec _ (SortedMap.mem_of_next hnext))
        | resolveErase hf => cases hxe; exact hsub (hrec _ (SortedMap.find?_eq_some_iff.1 hf))
        | _ => cases hxe
      · exact hsub (herase tag (List.mem_filterMap.2 ⟨x, List.mem_cons_of_mem _ hx, hxe⟩))
  | @event c s tr hc =>
    refine ⟨hI.1, fun tag htag => ?_⟩
    obtain ⟨x, hx, hxe⟩ := List.mem_filterMap.1 htag
    rw [List.mem_singleton.1 hx, erases_of_isEvent hc] at hxe
    cases hxe
  | @reentry c f rest s tr hf hc =>
    refine ⟨hI.1, fun tag htag => ?_⟩
    obtain ⟨x, hx, hxe⟩ := List.mem_filterMap.1 htag
    rcases List.mem_cons.1 hx with rfl | hx
    · rw [erases_of_isEvent (isEvent_of_enters (Γ := Γ) (Or.inr hc))] at hxe
      cases hxe
    · exact hI.2 tag (List.mem_filterMap.2 ⟨x, hx, hxe⟩)
  | @leave f rest s tr hf =>
    refine ⟨hI.1, fun tag htag => hI.2 tag ?_⟩
    obtain ⟨x, hx, hxe⟩ := List.mem_filterMap.1 htag
    exact List.mem_filterMap.2 ⟨x, List.mem_cons_of_mem _ hx, hxe⟩

/-- A record is there until it is erased: what is about to be erased is there. -/
theorem recorded_of_run {config : Config} {key : KademliaKey} {offset : Time} {ok : NodeConfig → NodeLabel → Prop}
    {m : NodeConfig} (h : Run (nodeProgram Γ) ok (startNode config key offset) m) :
    ∀ tag ∈ erasing m.stack, ∃ r, m.state.callbacks.find? tag = some r := by
  refine h.invariant (I := fun m => ∀ tag ∈ erasing m.stack, ∃ r, m.state.callbacks.find? tag = some r)
    (by simp [startNode, erasing]) ?_
  intro m l m' hr hI _ hs
  cases hs with
  | @run ch c rest n tr n' cs hw he =>
    intro tag htag
    obtain ⟨x, hx, hxe⟩ := List.mem_filterMap.1 htag
    have hold : c.erases = none → (∃ r, n.callbacks.find? tag = some r) → ∃ r, n'.callbacks.find? tag = some r := by
      intro hc hf
      rcases exec_callbacks he with h | ⟨msg, cb, mr, t, rfl, -, -, h⟩ | ⟨tag', rfl, h⟩ | ⟨tag', r', rfl, -, h⟩
      · exact h ▸ hf
      · exact h ▸ SortedMap.exists_find?_insert hf _ _
      · cases hc
      · exact h ▸ SortedMap.exists_find?_insert hf _ _
    rcases List.mem_append.1 hx with hx | hx
    · cases exec_makes he x hx with
      | giveUpErase hnext hr => cases hxe; exact hold rfl ⟨_, SortedMap.find?_eq_some_iff.2 (SortedMap.mem_of_next hnext)⟩
      | resolveErase hf => cases hxe; exact hold rfl ⟨_, hf⟩
      | _ => cases hxe
    · refine hold ?_ (hI tag (List.mem_filterMap.2 ⟨x, List.mem_cons_of_mem _ hx, hxe⟩))
      by_contra hne
      have hout : c.isOuter = true := by
        unfold Call.erases at hne
        split at hne
        · rfl
        · exact absurd rfl hne
      have hnil := erasing_eq_nil_of_outer (disciplined_of_run hr) hout
      have hmem : tag ∈ erasing rest := List.mem_filterMap.2 ⟨x, hx, hxe⟩
      rw [hnil] at hmem
      cases hmem
  | @event c s tr hc =>
    intro tag htag
    obtain ⟨x, hx, hxe⟩ := List.mem_filterMap.1 htag
    rw [List.mem_singleton.1 hx, erases_of_isEvent hc] at hxe
    cases hxe
  | @reentry c f rest s tr hf hc =>
    intro tag htag
    obtain ⟨x, hx, hxe⟩ := List.mem_filterMap.1 htag
    rcases List.mem_cons.1 hx with rfl | hx
    · rw [erases_of_isEvent (isEvent_of_enters (Γ := Γ) (Or.inr hc))] at hxe
      cases hxe
    · exact hI tag (List.mem_filterMap.2 ⟨x, hx, hxe⟩)
  | @leave f rest s tr hf =>
    intro tag htag
    obtain ⟨x, hx, hxe⟩ := List.mem_filterMap.1 htag
    exact hI tag (List.mem_filterMap.2 ⟨x, List.mem_cons_of_mem _ hx, hxe⟩)

/-- A tag that is drawn fresh is that of no record. -/
theorem fresh_of_run {config : Config} {key : KademliaKey} {offset : Time} {ok : NodeConfig → NodeLabel → Prop}
    {tr : NodeTrace} {msg : Message UInt32} {cb : CallbackSet SendFn} {mr : UInt32} {t : UInt64}
    (h : Run (nodeProgram Γ) ok (startNode config key offset) ⟨n, .base (.send msg cb mr t) :: rest, tr⟩)
    (hfresh : freshTags ⟨n, .base (.send msg cb mr t) :: rest, tr⟩ (.run ch) = true) (ht : msg.tag = 0)
    (hlive : n.dead = false) : n.callbacks.find? ch.tag = none ∧ ch.tag ∉ erasing rest := by
  obtain ⟨hrec, herase⟩ := tags_drawn_of_run h
  have hnew : ch.tag ∉ drawnTags tr := by
    simp only [freshTags, ht, hlive, ne_eq, not_true_eq_false, decide_false, Bool.false_or, Bool.and_eq_true,
      decide_eq_true_eq] at hfresh
    exact hfresh.2
  refine ⟨SortedMap.find?_eq_none_iff.2 (fun r hr => hnew (hrec _ hr)), fun hmem => hnew (herase _ ?_)⟩
  exact hmem

end KademliaNode

end Dhtsim
