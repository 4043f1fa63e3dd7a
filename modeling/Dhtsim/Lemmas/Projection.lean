import Dhtsim.Lemmas.NetworkCalls
import Dhtsim.Lemmas.Pending
import Mathlib.Data.List.Chain

/-!
# The nodes of a network

What a run of a network does to one of its nodes is a run of the node (`run_nodeConfig`), so that what holds in every run of a
node holds of every node of a network.
-/

namespace Dhtsim

open CallMachine

/-- What may be on the stack above a call: above one inside a node only calls inside nodes, and those of another node only when
the node runs outside code. -/
def Above {N : Nat} : NetworkCall N → NetworkCall N → Prop
  | x, .app i c => ∃ j c', x = .app j c' ∧ (j = i ∨ c.isUserCode = true)
  | _, _ => True

/-- What the network calls in a node: it ticks it, hands it a message, or sends one again without a callback. -/
def Call.fromNetwork : Call → Bool
  | .tick _ => true
  | .base (.recv _) => true
  | .base (.send _ callback _ _) => callback.isEmpty
  | _ => false

/-- The calls of a node that come in: the network ticks it, hands it a message or sends one again, somebody uses its public
functions or kills it. -/
def Call.comesIn : Call → Bool
  | .tick _ => true
  | .base (.recv _) => true
  | .base (.send _ callback _ _) => callback.isEmpty
  | .base .die => true
  | c => c.isPublic

/-- What comes in is an event of the node. -/
theorem isEvent_of_comesIn {c : Call} (h : c.comesIn = true) : c.isEvent = true := by
  cases c with
  | base b =>
    cases b with
    | send m cb r t => exact h
    | recv m => rfl
    | die => rfl
    | _ => cases h
  | tick t => rfl
  | _ => exact h

theorem comesIn_of_fromNetwork {c : Call} (h : c.fromNetwork = true) : c.comesIn = true := by
  cases c with
  | base b =>
    cases b with
    | send m cb r t => exact h
    | recv m => rfl
    | _ => cases h
  | tick t => rfl
  | _ => cases h

/-- The order of the stack of a network, and what the network calls in its nodes. -/
structure Layered {N : Nat} (stack : List (NetworkCall N)) : Prop where
  chain : stack.IsChain Above
  events : ∀ i c, .call i c ∈ stack → c.fromNetwork = true

namespace NetworkCall

variable {N : Nat} {i : Fin N} {x y : NetworkCall N} {stack rest : List (NetworkCall N)}

/-- The call of a node, if it is one. -/
def inside : NetworkCall N → Option (Fin N × Call)
  | .app i c => some (i, c)
  | _ => none

theorem within_eq_nil_of_ne (h : ∀ c, x ≠ .app i c) : x.within i = [] := by
  cases x with
  | app j c =>
    have hj : j ≠ i := fun hj => h c (hj ▸ rfl)
    exact if_neg hj
  | _ => rfl

theorem eq_app_of_mem_within {c : Call} (h : c ∈ x.within i) : x = .app i c := by
  cases x with
  | app j c' =>
    simp only [within] at h
    split at h
    · next hj => rw [hj, List.mem_singleton.1 h]
    · cases h
  | _ => cases h

@[simp] theorem within_app_self (i : Fin N) (c : Call) : (NetworkCall.app i c).within i = [c] := if_pos rfl

theorem within_map_self (i : Fin N) (cs : List Call) : (cs.map (NetworkCall.app i)).flatMap (within i) = cs := by
  induction cs with
  | nil => rfl
  | cons c cs ih => rw [List.map_cons, List.flatMap_cons, within_app_self, ih]; rfl

theorem within_map_of_ne {j : Fin N} (h : j ≠ i) (cs : List Call) : (cs.map (NetworkCall.app j)).flatMap (within i) = [] := by
  refine List.flatMap_eq_nil_iff.2 (fun x hx => ?_)
  obtain ⟨c, -, rfl⟩ := List.mem_map.1 hx
  exact if_neg h

/-- The calls of a node under a call of something else: there are none, or the node waits for outside code. -/
theorem within_under (h : (x :: rest).IsChain Above) (hx : ∀ c, x ≠ .app i c) :
    rest.flatMap (within i) = [] ∨ ∃ c tail, rest.flatMap (within i) = c :: tail ∧ c.isUserCode = true := by
  induction rest generalizing x with
  | nil => exact Or.inl rfl
  | cons y rest ih =>
    obtain ⟨hxy, hrest⟩ := List.isChain_cons_cons.1 h
    rw [List.flatMap_cons]
    by_cases hy : ∃ c, y = .app i c
    · obtain ⟨c, rfl⟩ := hy
      obtain ⟨j, c', rfl, rfl | huser⟩ := hxy
      · exact absurd rfl (hx c')
      · exact Or.inr ⟨c, _, by rw [within_app_self]; rfl, huser⟩
    · have hy : ∀ c, y ≠ .app i c := fun c hc => hy ⟨c, hc⟩
      rw [within_eq_nil_of_ne hy]
      exact ih hrest hy

/-- Under a call of the network there are no calls inside nodes. -/
theorem within_below (h : (x :: rest).IsChain Above) (hx : x.inside = none) : rest.flatMap (within i) = [] := by
  induction rest generalizing x with
  | nil => rfl
  | cons y rest ih =>
    obtain ⟨hxy, hrest⟩ := List.isChain_cons_cons.1 h
    have hy : y.inside = none := by
      cases y with
      | app j c =>
        obtain ⟨j', c', rfl, -⟩ := hxy
        cases hx
      | _ => rfl
    rw [List.flatMap_cons, ih hrest hy, within_eq_nil_of_ne]
    · rfl
    · rintro c rfl
      cases hy

/-- Outside code that runs may call a node: nothing of the node runs, or it waits for outside code too. -/
theorem within_of_userCode (h : (x :: rest).IsChain Above) (hx : x.isUserCode = true) :
    (x :: rest).flatMap (within i) = [] ∨ ∃ c tail, (x :: rest).flatMap (within i) = c :: tail ∧ c.isUserCode = true := by
  rw [List.flatMap_cons]
  by_cases hi : ∃ c, x = .app i c
  · obtain ⟨c, rfl⟩ := hi
    exact Or.inr ⟨c, _, by rw [within_app_self]; rfl, hx⟩
  · have hi : ∀ c, x ≠ .app i c := fun c hc => hi ⟨c, hc⟩
    rw [within_eq_nil_of_ne hi]
    exact within_under h hi

variable {Γ : Ctx} {ch : NetworkChoice} {w w' : CentralizedNetwork N} {i : Fin N} {x y : NetworkCall N}
  {rest cs : List (NetworkCall N)} {m m' : NetworkConfig N}

/-- The network calls its nodes to tick one, to hand it a message, or to send a message again without a callback. -/
theorem fromNetwork_of_makes {c : Call} (h : NetworkMakes Γ ch w x (.call i c)) : c.fromNetwork = true := by
  cases h <;> rfl

/-- A call of the network makes calls of the network, but for the call of a node that it hands on. -/
theorem inside_of_makes (h : NetworkMakes Γ ch w x y) (hx : x.inside = none) :
    y.inside = none ∨ ∃ i c, x = .call i c ∧ y = .app i c := by
  cases h with
  | inside h => cases hx
  | handOn => exact Or.inr ⟨_, _, rfl, rfl⟩
  | _ => exact Or.inl rfl

/-- What comes in is a call of the network, or one of a node that may come in. -/
theorem enters_cases {Γ : Ctx} (h : (networkProgram Γ N).event x = true ∨ (networkProgram Γ N).reentry x = true) :
    (∀ i c, x ≠ .call i c) ∧ ∀ i c, x = .app i c → c.comesIn = true := by
  constructor
  · rintro i c rfl
    rcases h with h | h <;> cases h
  · rintro i c rfl
    have hpublic : c.isPublic = true → c.comesIn = true := by
      intro hc
      cases c with
      | base b => cases hc
      | tick t => rfl
      | _ => exact hc
    rcases h with h | h
    · rcases Bool.or_eq_true_iff.1 h with h | h
      · exact hpublic h
      · rw [of_decide_eq_true h]
        rfl
    · exact hpublic h

/-- The calls that a call makes may be above one another. -/
theorem above_of_makes {z : NetworkCall N} (hy : NetworkMakes Γ ch w x y) (hz : NetworkMakes Γ ch w x z) : Above y z := by
  cases hz with
  | inside hz => cases hy with | inside hy => exact ⟨_, _, rfl, Or.inl rfl⟩
  | handOn => cases hy; exact ⟨_, _, rfl, Or.inl rfl⟩
  | _ => trivial

/-- A call may be above what the call that made it was above. -/
theorem above_of_above {z : NetworkCall N} (hy : NetworkMakes Γ ch w x y) (h : Above x z) : Above y z := by
  cases z with
  | app i c =>
    obtain ⟨j, c', rfl, hj⟩ := h
    cases hy with | inside hy => exact ⟨j, _, rfl, hj⟩
  | _ => trivial

/-- The calls that the top of a stack makes keep the stack in order. -/
theorem chain_of_makes (h : (x :: rest).IsChain Above) (hcs : ∀ y ∈ cs, NetworkMakes Γ ch w x y) :
    (cs ++ rest).IsChain Above := by
  refine List.isChain_append.2 ⟨?_, h.of_cons, ?_⟩
  · refine (List.pairwise_of_forall_mem_list ?_).isChain
    exact fun y hy z hz => above_of_makes (hcs y hy) (hcs z hz)
  · intro y hy z hz
    exact above_of_above (hcs y (List.mem_of_getLast? hy)) (List.IsChain.rel_head? h hz)

theorem layered_of_run {ok : NetworkConfig N → NetworkLabel N → Prop} {config : Fin N → Config} {key : Fin N → KademliaKey}
    {offset : Fin N → Time} {limit : UInt32} (h : Run (networkProgram Γ N) ok (startNetwork config key offset limit) m) :
    Layered m.stack := by
  refine h.invariant (I := fun m => Layered m.stack) ⟨List.IsChain.nil, fun _ _ h => absurd h List.not_mem_nil⟩ ?_
  intro m l m' _ hI _ hs
  cases hs with
  | run hw he =>
    have hmakes := CentralizedNetwork.exec_makes he
    refine ⟨chain_of_makes hI.chain hmakes, fun i c hc => ?_⟩
    rcases List.mem_append.1 hc with hc | hc
    · exact fromNetwork_of_makes (hmakes _ hc)
    · exact hI.events i c (List.mem_cons_of_mem _ hc)
  | event hc => exact ⟨List.IsChain.singleton _, fun i c hmem => absurd (List.mem_singleton.1 hmem).symm
      ((enters_cases (Or.inl hc)).1 i c)⟩
  | @reentry c f rest s tr hf hc =>
    refine ⟨List.isChain_cons_cons.2 ⟨?_, hI.chain⟩, fun i c' hmem => ?_⟩
    · cases f with
      | app i c' =>
        cases c with
        | app j c => exact ⟨j, c, rfl, Or.inr hf⟩
        | _ => cases hc
      | _ => trivial
    · rcases List.mem_cons.1 hmem with h | h
      · exact absurd h.symm ((enters_cases (Or.inr hc)).1 i c')
      · exact hI.events i c' h
  | leave hf => exact ⟨hI.chain.of_cons, fun i c hmem => hI.events i c (List.mem_cons_of_mem _ hmem)⟩

end NetworkCall

open NetworkCall

variable {N : Nat} {Γ : Ctx} {i : Fin N} {m : NetworkConfig N} {config : Fin N → Config} {key : Fin N → KademliaKey}
  {offset : Fin N → Time} {limit : UInt32} {ok : NetworkConfig N → NetworkLabel N → Prop} {ok' : NodeConfig → NodeLabel → Prop}

/-- The steps of a node that the network does not make in a call inside the node: it takes a message, or gives it an address. -/
def byNetwork (m : NodeConfig) (l : NodeLabel) : Prop :=
  ∀ ch c rest, l = .run ch → m.stack = c :: rest → c = .base .unqueueOut ∨ ∃ a, c = .base (.setAddress a)

/-- The network calls a function of a node that returns at once. -/
theorem run_once {m₀ : NodeConfig} {n n' : KademliaNode} {tr : NodeTrace} {b : BaseCall UInt32 SendFn} {ch : Choice}
    (hfree : ∀ m l, byNetwork m l → ok' m l) (h : Run (nodeProgram Γ) ok' m₀ ⟨n, [], tr⟩)
    (hb : b = .unqueueOut ∨ ∃ a, b = .setAddress a) (he : n.execBase Γ ch b = (n', [])) :
    Run (nodeProgram Γ) ok' m₀ ⟨n', [], (.base b, ch) :: tr⟩ := by
  have hevent : (nodeProgram Γ).event (.base b) = true := by
    rcases hb with rfl | ⟨a, rfl⟩ <;> rfl
  have hrun : Step (nodeProgram Γ) ⟨n, [.base b], tr⟩ (.run ch) ⟨n', [] ++ [], (.base b, ch) :: tr⟩ :=
    .run rfl (congrArg some he)
  have h1 := h.step (l := .enter (.base b)) (hfree _ _ (by rintro _ _ _ ⟨⟩)) (Step.event hevent).step_eq
  refine h1.step (l := .run ch) (hfree _ _ ?_) hrun.step_eq
  rintro _ _ _ - ⟨⟩
  rcases hb with rfl | ⟨a, rfl⟩
  · exact Or.inl rfl
  · exact Or.inr ⟨a, rfl⟩

theorem nodeConfig_cons {w : CentralizedNetwork N} {cs rest : List (NetworkCall N)} {x : NetworkCall N} {ch : NetworkChoice}
    {tr : NetworkTrace N} : nodeConfig i ⟨w, cs ++ rest, (x, ch) :: tr⟩ =
      ⟨w.applications i, cs.flatMap (within i) ++ rest.flatMap (within i), runsIn i (x, ch) ++ tr.flatMap (runsIn i)⟩ := by
  simp only [nodeConfig, List.flatMap_append, List.flatMap_cons]

/-- A call of the network that does not hand on a call makes none inside a node. -/
theorem within_of_makes {w : CentralizedNetwork N} {cs : List (NetworkCall N)} {x : NetworkCall N} {ch : NetworkChoice}
    (hcs : ∀ y ∈ cs, NetworkMakes Γ ch w x y) (hx : x.inside = none) (hcall : ∀ j c, x ≠ .call j c) :
    cs.flatMap (within i) = [] := by
  refine List.flatMap_eq_nil_iff.2 (fun y hy => within_eq_nil_of_ne ?_)
  rintro c rfl
  rcases inside_of_makes (hcs _ hy) hx with h | ⟨j, c', rfl, -⟩
  · cases h
  · exact hcall j c' rfl

/-- A call that runs in a network is, for one of its nodes, a step or two of the node, or none. -/
theorem nodeConfig_run {m₀ : NodeConfig} {w w' : CentralizedNetwork N} {x : NetworkCall N} {cs rest : List (NetworkCall N)}
    {tr : NetworkTrace N} {ch : NetworkChoice}
    (hrun : ∀ c, x = .app i c → ok' (nodeConfig i ⟨w, x :: rest, tr⟩) (.run ch.toChoice))
    (hfree : ∀ m l, byNetwork m l → ok' m l) (hlayered : Layered (x :: rest))
    (h : Run (nodeProgram Γ) ok' m₀ (nodeConfig i ⟨w, x :: rest, tr⟩)) (hw : x.isUserCode = false)
    (he : CentralizedNetwork.exec Γ ch x w = some (w', cs)) :
    Run (nodeProgram Γ) ok' m₀ (nodeConfig i ⟨w', cs ++ rest, (x, ch) :: tr⟩) := by
  have hmakes := CentralizedNetwork.exec_makes he
  rw [nodeConfig_cons]
  -- A call of the network that is not for this node: the node is as before.
  have hother : w'.applications i = w.applications i → cs.flatMap (within i) = [] → runsIn i (x, ch) = [] →
      x.within i = [] → Run (nodeProgram Γ) ok' m₀ ⟨w'.applications i, cs.flatMap (within i) ++ rest.flatMap (within i),
        runsIn i (x, ch) ++ tr.flatMap (runsIn i)⟩ := by
    intro h1 h2 h3 h4
    rw [h1, h2, h3]
    simpa only [nodeConfig, List.flatMap_cons, h4, List.nil_append] using h
  cases x with
  | app j c =>
    obtain ⟨q, hq, heq⟩ := CentralizedNetwork.exec_app he
    cases heq
    by_cases hj : j = i
    · subst hj
      rw [within_map_self, CentralizedNetwork.applications_setApplication_self]
      have hstack : nodeConfig j ⟨w, .app j c :: rest, tr⟩ =
          ⟨w.applications j, c :: rest.flatMap (within j), tr.flatMap (runsIn j)⟩ := by
        simp only [nodeConfig, List.flatMap_cons, within_app_self, List.singleton_append]
      have hok := hrun c rfl
      rw [hstack] at h hok
      have hruns : runsIn j (NetworkCall.app j c, ch) = [(c, ch.toChoice)] := if_pos rfl
      rw [hruns]
      exact h.step hok (Step.run hw hq).step_eq
    · exact hother (CentralizedNetwork.applications_setApplication_of_ne w (Ne.symm hj) q.1) (within_map_of_ne hj q.2)
        (if_neg hj) (if_neg hj)
  | call j c =>
    cases he
    by_cases hj : j = i
    · subst hj
      have hbelow : rest.flatMap (within j) = [] := within_below hlayered.chain rfl
      have hevent : c.isEvent = true := isEvent_of_comesIn (comesIn_of_fromNetwork (hlayered.events j c List.mem_cons_self))
      have hstack : nodeConfig j ⟨w, .call j c :: rest, tr⟩ = ⟨w.applications j, [], tr.flatMap (runsIn j)⟩ := by
        simp only [nodeConfig, List.flatMap_cons, hbelow]
        rfl
      rw [hstack] at h
      rw [hbelow, List.flatMap_cons, within_app_self]
      exact h.step (hfree _ _ (by rintro _ _ _ ⟨⟩)) (Step.event hevent).step_eq
    · exact hother rfl (by rw [List.flatMap_cons, within_eq_nil_of_ne (by simpa using hj)]; rfl) rfl rfl
  | outbound j total =>
    have hcs : cs.flatMap (within i) = [] := within_of_makes hmakes rfl (by simp)
    cases he
    by_cases hj : j = i
    · subst hj
      have hbelow : rest.flatMap (within j) = [] := within_below hlayered.chain rfl
      have hstack : nodeConfig j ⟨w, .outbound j total :: rest, tr⟩ = ⟨w.applications j, [], tr.flatMap (runsIn j)⟩ := by
        simp only [nodeConfig, List.flatMap_cons, hbelow]
        rfl
      rw [hstack] at h
      have hruns : runsIn j (NetworkCall.outbound j total, ch) = [(.base .unqueueOut, ch.toChoice)] := if_pos rfl
      rw [hbelow, hruns, hcs]
      refine run_once hfree h (Or.inl rfl) ?_
      rw [CentralizedNetwork.applications_setApplication_self]
      rfl
    · exact hother (CentralizedNetwork.applications_setApplication_of_ne w (Ne.symm hj) _) hcs (if_neg hj) rfl
  | settle j a =>
    have hcs : cs.flatMap (within i) = [] := within_of_makes hmakes rfl (by simp)
    cases he
    by_cases hj : j = i
    · subst hj
      have hbelow : rest.flatMap (within j) = [] := within_below hlayered.chain rfl
      have hstack : nodeConfig j ⟨w, .settle j a :: rest, tr⟩ = ⟨w.applications j, [], tr.flatMap (runsIn j)⟩ := by
        simp only [nodeConfig, List.flatMap_cons, hbelow]
        rfl
      rw [hstack] at h
      have hruns : runsIn j (NetworkCall.settle j a, ch) = [(.base (.setAddress a), ch.toChoice)] := if_pos rfl
      rw [hbelow, hruns, hcs]
      refine run_once hfree h (Or.inr ⟨a, rfl⟩) ?_
      simp only [CentralizedNetwork.settle, CentralizedNetwork.applications_setApplication_self]
      rfl
    · exact hother (CentralizedNetwork.applications_setApplication_of_ne w (Ne.symm hj) _) hcs (if_neg hj) rfl
  | _ =>
    have hcs : cs.flatMap (within i) = [] := within_of_makes hmakes rfl (by simp)
    cases he
    exact hother rfl hcs rfl rfl

/-- A step of a network is, for one of its nodes, a step or two of the node, or none. -/
theorem nodeConfig_step {m₀ : NodeConfig} {m' : NetworkConfig N} {l : NetworkLabel N}
    (hrun : ∀ ch c rest, l = .run ch → m.stack = .app i c :: rest → ok' (nodeConfig i m) (.run ch.toChoice))
    (hfree : ∀ m l, byNetwork m l → ok' m l) (hlayered : Layered m.stack)
    (h : Run (nodeProgram Γ) ok' m₀ (nodeConfig i m)) (hs : Step (networkProgram Γ N) m l m') :
    Run (nodeProgram Γ) ok' m₀ (nodeConfig i m') := by
  have hfree' : ∀ (m : NodeConfig) (l : NodeLabel), (∀ ch, l ≠ .run ch) → ok' m l :=
    fun m l hl => hfree m l (fun ch _ _ h _ => absurd h (hl ch))
  cases hs with
  | @run ch x rest w tr w' cs hw he =>
    exact nodeConfig_run (fun c hc => hrun ch c rest rfl (by rw [hc])) hfree hlayered h hw he
  | @event x w tr hx =>
    by_cases hi : ∃ c, x = .app i c
    · obtain ⟨c, rfl⟩ := hi
      have hevent : (nodeProgram Γ).event c = true := isEvent_of_comesIn ((enters_cases (Or.inl hx)).2 i c rfl)
      simp only [nodeConfig, List.flatMap_cons, within_app_self, List.flatMap_nil, List.append_nil] at h ⊢
      exact h.step (hfree' _ _ (by simp)) (Step.event hevent).step_eq
    · have hi : ∀ c, x ≠ .app i c := fun c hc => hi ⟨c, hc⟩
      simpa only [nodeConfig, List.flatMap_cons, within_eq_nil_of_ne hi, List.flatMap_nil, List.append_nil] using h
  | @reentry x f rest w tr hf hx =>
    by_cases hi : ∃ c, x = .app i c
    · obtain ⟨c, rfl⟩ := hi
      rw [nodeConfig] at h ⊢
      rw [List.flatMap_cons, within_app_self]
      rcases within_of_userCode (i := i) hlayered.chain hf with hstack | ⟨c', tail, hstack, huser⟩
      · have hevent : (nodeProgram Γ).event c = true := isEvent_of_comesIn ((enters_cases (Or.inr hx)).2 i c rfl)
        rw [hstack] at h ⊢
        exact h.step (hfree' _ _ (by simp)) (Step.event hevent).step_eq
      · have hpublic : (nodeProgram Γ).reentry c = true := hx
        have hwaits : (nodeProgram Γ).waits c' = true := huser
        rw [hstack] at h ⊢
        exact h.step (hfree' _ _ (by simp)) (Step.reentry hwaits hpublic).step_eq
    · have hi : ∀ c, x ≠ .app i c := fun c hc => hi ⟨c, hc⟩
      have hstack : (x :: f :: rest).flatMap (within i) = (f :: rest).flatMap (within i) := by
        rw [List.flatMap_cons, within_eq_nil_of_ne hi, List.nil_append]
      rw [nodeConfig, hstack]
      exact h
  | @leave f rest w tr hf =>
    by_cases hi : ∃ c, f = .app i c
    · obtain ⟨c, rfl⟩ := hi
      have hwaits : (nodeProgram Γ).waits c = true := hf
      simp only [nodeConfig, List.flatMap_cons, within_app_self, List.singleton_append] at h ⊢
      exact h.step (hfree' _ _ (by simp)) (Step.leave hwaits).step_eq
    · have hi : ∀ c, f ≠ .app i c := fun c hc => hi ⟨c, hc⟩
      simpa only [nodeConfig, List.flatMap_cons, within_eq_nil_of_ne hi, List.nil_append] using h

/-- What a run of a network does to one of its nodes is a run of the node. -/
theorem run_nodeConfig
    (hrun : ∀ m ch c rest, ok m (.run ch) → m.stack = .app i c :: rest → ok' (nodeConfig i m) (.run ch.toChoice))
    (hfree : ∀ m l, byNetwork m l → ok' m l)
    (h : Run (networkProgram Γ N) ok (startNetwork config key offset limit) m) :
    Run (nodeProgram Γ) ok' (startNode (config i) (key i) (offset i)) (nodeConfig i m) := by
  refine h.invariant (I := fun m => Run (nodeProgram Γ) ok' (startNode (config i) (key i) (offset i)) (nodeConfig i m))
    .refl ?_
  intro m l m' hr hI hok hs
  refine nodeConfig_step (fun ch c rest hl hstack => ?_) hfree (layered_of_run hr) hI hs
  exact hrun m ch c rest (hl ▸ hok) hstack

/-- What holds in every run of a node holds of every node of a network. -/
theorem run_node (h : Run (networkProgram Γ N) ok (startNetwork config key offset limit) m) (i : Fin N) :
    Run (nodeProgram Γ) anyStep (startNode (config i) (key i) (offset i)) (nodeConfig i m) :=
  run_nodeConfig (fun _ _ _ _ _ _ => trivial) (fun _ _ _ => trivial) h

/-- Tags that are fresh in the network are fresh in a node. -/
theorem run_node_freshTags (hok : ∀ m l, ok m l → freshNetworkTags m l = true)
    (h : Run (networkProgram Γ N) ok (startNetwork config key offset limit) m) (i : Fin N) :
    Run (nodeProgram Γ) (fun m l => freshTags m l = true) (startNode (config i) (key i) (offset i)) (nodeConfig i m) := by
  refine run_nodeConfig (fun m ch c rest hl hstack => ?_) (fun m l hm => ?_) h
  · have hfresh := hok m _ hl
    have hhead : (nodeConfig i m).stack = c :: rest.flatMap (within i) := by
      rw [nodeConfig, hstack, List.flatMap_cons, within_app_self, List.singleton_append]
    unfold freshTags
    split
    · rename_i ch' msg cb mr t tail hl' hstack'
      obtain ⟨rfl, -⟩ := List.cons.inj (hhead.symm.trans hstack')
      cases hl'
      simp only [freshNetworkTags, hstack, Bool.or_eq_true, Bool.and_eq_true, List.all_eq_true] at hfresh ⊢
      rcases hfresh with hold | ⟨hne, hnew⟩
      · exact Or.inl hold
      · exact Or.inr ⟨hne, hnew i (List.mem_finRange i)⟩
    · rfl
  · unfold freshTags
    split
    · rename_i ch msg cb mr t rest hstack
      rcases hm ch _ rest rfl hstack with h | ⟨a, h⟩ <;> cases h
    · rfl

/-- A node was not killed in the network when its own trace does not show it. -/
theorem runsIn_ne_die {tr : NetworkTrace N} :
    (∀ e ∈ tr.flatMap (runsIn i), e.1 ≠ .base .die) ↔ ∀ e ∈ tr, e.1 ≠ .app i (.base .die) := by
  constructor
  · rintro h ⟨x, ch⟩ hx rfl
    refine h (.base .die, ch.toChoice) (List.mem_flatMap.2 ⟨_, hx, ?_⟩) rfl
    simp [runsIn]
  · rintro h ⟨c, ch⟩ hc rfl
    obtain ⟨⟨x, ch'⟩, hx, hmem⟩ := List.mem_flatMap.1 hc
    have hne := h _ hx
    unfold runsIn at hmem
    split at hmem
    · rename_i heq
      cases heq
      split at hmem
      · rename_i hj
        cases List.mem_singleton.1 hmem
        exact hne (by rw [hj])
      · cases hmem
    · split at hmem
      · cases List.mem_singleton.1 hmem
      · cases hmem
    · split at hmem
      · cases List.mem_singleton.1 hmem
      · cases hmem
    · cases hmem

/-- In one step of a network a node runs no call or one: a call inside it, or one that the network makes itself. -/
theorem runsIn_cases (i : Fin N) (x : NetworkCall N) (ch : NetworkChoice) :
    (runsIn i (x, ch) = [] ∧ x.within i = []) ∨ ∃ c, runsIn i (x, ch) = [(c, ch.toChoice)] ∧
      (x = .app i c ∨ x.within i = [] ∧ (c = .base .unqueueOut ∨ ∃ a, c = .base (.setAddress a))) := by
  cases x with
  | app j c =>
    by_cases hj : j = i
    · subst hj
      exact Or.inr ⟨c, if_pos rfl, Or.inl rfl⟩
    · exact Or.inl ⟨if_neg hj, if_neg hj⟩
  | outbound j total =>
    by_cases hj : j = i
    · exact Or.inr ⟨_, if_pos hj, Or.inr ⟨rfl, Or.inl rfl⟩⟩
    · exact Or.inl ⟨if_neg hj, rfl⟩
  | settle j a =>
    by_cases hj : j = i
    · exact Or.inr ⟨_, if_pos hj, Or.inr ⟨rfl, Or.inr ⟨a, rfl⟩⟩⟩
    · exact Or.inl ⟨if_neg hj, rfl⟩
  | _ => exact Or.inl ⟨rfl, rfl⟩

/-- A call of a node that the network did not make itself ran in the network. -/
theorem mem_of_runsIn {e : Call × Choice} {tr : NetworkTrace N} (h : e ∈ tr.flatMap (runsIn i)) (hout : e.1 ≠ .base .unqueueOut)
    (haddr : ∀ a, e.1 ≠ .base (.setAddress a)) : ∃ ch, (.app i e.1, ch) ∈ tr ∧ ch.toChoice = e.2 := by
  obtain ⟨⟨x, ch⟩, hx, hmem⟩ := List.mem_flatMap.1 h
  rcases runsIn_cases i x ch with ⟨hnil, -⟩ | ⟨c, hone, hcall⟩
  · rw [hnil] at hmem
    cases hmem
  · rw [hone] at hmem
    obtain rfl := List.mem_singleton.1 hmem
    rcases hcall with rfl | ⟨-, h | ⟨a, h⟩⟩
    · exact ⟨ch, hx, rfl⟩
    · exact absurd h hout
    · exact absurd h (haddr a)

theorem mem_stack_nodeConfig {c : Call} (h : .app i c ∈ m.stack) : c ∈ (nodeConfig i m).stack :=
  List.mem_flatMap.2 ⟨_, h, by rw [within_app_self]; exact List.mem_singleton_self c⟩

theorem key_of_run (h : Run (networkProgram Γ N) ok (startNetwork config key offset limit) m) (i : Fin N) :
    (m.state.applications i).key = key i := (KademliaNode.fromRequests_of_run (run_node h i)).1.1

theorem live_iff (h : Run (networkProgram Γ N) ok (startNetwork config key offset limit) m) (i : Fin N) :
    (m.state.applications i).dead = false ↔ ∀ e ∈ m.trace, e.1 ≠ .app i (.base .die) :=
  (KademliaNode.dead_iff_of_run (run_node h i)).trans runsIn_ne_die

/-- The rule for what is known of a call inside a node while it waits: it is known of what comes in, and of what a call of the
node makes, and stays known. -/
theorem inside_of_run {C : NetworkConfig N → Fin N → Call → Prop}
    (h : Run (networkProgram Γ N) ok (startNetwork config key offset limit) m)
    (hmono : ∀ m m' i c, Run (networkProgram Γ N) ok m m' → C m i c → C m' i c)
    (hevent : ∀ m i c, c.comesIn = true → C m i c)
    (hmakes : ∀ m i c z rest ch, Run (networkProgram Γ N) ok (startNetwork config key offset limit) m →
      m.stack = .app i c :: rest → KademliaNode.Makes Γ ch (m.state.applications i) c z → C m i z) :
    ∀ i c, .app i c ∈ m.stack → C m i c := by
  refine h.invariant (I := fun m => ∀ i c, .app i c ∈ m.stack → C m i c) (fun i c hmem => absurd hmem List.not_mem_nil) ?_
  intro m l m' hr hI hl hs i c hmem
  have hstep : Run (networkProgram Γ N) ok m m' := Run.refl.step hl hs.step_eq
  cases hs with
  | @run ch x rest w tr w' cs hw he =>
    rcases List.mem_append.1 hmem with hmem | hmem
    · refine hmono _ _ i c hstep ?_
      cases CentralizedNetwork.exec_makes he _ hmem with
      | inside hz => exact hmakes _ i _ c rest _ hr rfl hz
      | handOn => exact hevent _ i c (comesIn_of_fromNetwork ((layered_of_run hr).events i c List.mem_cons_self))
    · exact hmono _ _ i c hstep (hI i c (List.mem_cons_of_mem _ hmem))
  | @event x w tr hx => exact hevent _ i c ((enters_cases (Or.inl hx)).2 i c (List.mem_singleton.1 hmem).symm)
  | @reentry x f rest w tr hf hx =>
    rcases List.mem_cons.1 hmem with rfl | hmem
    · exact hevent _ i c ((enters_cases (Or.inr hx)).2 i c rfl)
    · exact hmono _ _ i c hstep (hI i c hmem)
  | @leave f rest w tr hf => exact hmono _ _ i c hstep (hI i c (List.mem_cons_of_mem _ hmem))

end Dhtsim
