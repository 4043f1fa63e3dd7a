import Dhtsim.Lib.Contracts
import Dhtsim.Lemmas.Addresses
import Dhtsim.Lemmas.Population

/-!
# The course of an experiment

The contracts of the calls of the program, about the outline of its states: what a call relies on, and what it has done to the
population when it returns. Every call keeps its contract (`keeps`), whatever addresses are drawn for new nodes; when the draws are
`fresh`, each is of an address that was never in use. So every call of `main` and of the experiment finds the population that it
relies on.
-/

namespace Dhtsim

open CallMachine

/-- An address that is drawn for a new node is not zero and was never in use. -/
def freshAddress {N : Nat} (m : ExperimentConfig N) (l : ExperimentLabel N) : Bool :=
  match l, m.stack with
  | .run r, .inside (.add _) :: _ =>
    let w := m.state.1.network
    w.getNewAddress r.1.attempts ≠ 0 &&
      (List.finRange N).all (fun j => (w.applications j).address ≠ w.getNewAddress r.1.attempts)
  | _, _ => true

/-- The epoch is `e`, and a line was printed for each epoch before it. -/
def Outline.Clock {N : Nat} (o : Outline N) (e : Nat) : Prop :=
  o.epoch = UInt64.ofNat e ∧ o.ticked = ((List.range e).map UInt64.ofNat).reverse

/-- The keys under which `n` nodes store their numbers. -/
def numberKeys (Γ : Ctx) (n : Nat) : List KademliaKey := (List.range n).map (fun i => Γ.sha1 (toBytes i))

/-- A population of an experiment with `nNodes` nodes: node zero in the first slot, a bit and a key for each slot, and no node made
but those in the slots and one for each that was replaced. -/
structure Outline.Staffed {N : Nat} (Γ : Ctx) (nNodes : Nat) (fresh : Prop) (o : Outline N) : Prop where
  populated : o.Populated fresh
  zero : (o.nodes.map Fin.val).head? = some 0
  length : o.nodes.length = max 1 nNodes
  made : o.made = o.nodes.length + o.replaced
  slots : o.slots = o.nodes.length
  keys : o.keys = numberKeys Γ o.nodes.length

namespace ExperimentAux

variable {N : Nat} {Γ : Ctx} {D : Durations} {nNodes : Nat} {fresh : Prop}

/-! ## Contracts -/

/-- What a call of the network relies on. -/
def NetworkPre (o : Outline N) : NetworkCall N → Prop
  | .app i c => c = .base .die ∨ o.Live ∧ o.dead i = false ∧ ∀ a, c ≠ .base (.setAddress a)
  | .call i c => o.Live ∧ o.dead i = false ∧ c.fromNetwork = true
  | .outbound i _ => o.Live ∧ o.dead i = false
  | .add i => o.Live ∧ o.dead i = false
  | .settle i _ => o.Live ∧ o.dead i = false
  | .remove _ => True
  | _ => o.Live

/-- What a call of the network has done to the population. -/
def NetworkPost (fresh : Prop) (o o' : Outline N) : NetworkCall N → Prop
  | .app i c => o' = if c = .base .die then o.die i else o
  | .tick => o' = o.tick
  | .endTick => o' = o.tick
  | .add i => ∃ a, o.Drawn fresh a ∧ o' = o.add i a
  | .settle i a => o' = o.settle i a
  | .remove i => o' = o.remove i
  | _ => o' = o

/-- What the experiment asks of a node: to ping another, to store or to look up. -/
inductive Asks (fresh : Prop) (o : Outline N) (i : Fin N) : Call → Prop where
  | ping {a : UInt32} (h : fresh → a ≠ o.address i) : Asks fresh o i (.ping a .empty)
  | store (v : List UInt8) : Asks fresh o i (.store v)
  | fetch (key : KademliaKey) (cb : CallbackSet UserFn) : Asks fresh o i (fetch key cb)

/-- What the experiment relies on when it calls the network. -/
def EnterPre (fresh : Prop) (o : Outline N) : NetworkCall N → Prop
  | .app i c => c = .base .die ∨ o.Live ∧ o.dead i = false ∧ (fresh → o.address i ≠ 0) ∧ Asks fresh o i c
  | .add i => o.Live ∧ o.dead i = false ∧ o.address i = 0
  | .remove _ => True
  | .tick => o.Live
  | _ => False

/-- What a call of the experiment relies on. -/
def OwnPre (Γ : Ctx) (D : Durations) (nNodes : Nat) (fresh : Prop) (o : Outline N) : ExperimentCall N → Prop
  | .main n => n = nNodes ∧ o = .start
  | .startup n z => n = nNodes ∧ o.Populated fresh ∧ o.Clock 0 ∧ o.replaced = 0 ∧ o.slots = 0 ∧ o.made = 1 ∧ o.nodes = [z] ∧ z.val = 0
  | .addNodes i n a => n = nNodes ∧ o.Populated fresh ∧ o.Clock 0 ∧ o.replaced = 0 ∧ o.slots = 0 ∧ o.made = i ∧ o.nodes.length = i ∧
    ∃ z, o.nodes.head? = some z ∧ z.val = 0 ∧ o.address z = a
  | .ticks _ => o.Populated fresh
  | .experiment => o.Populated fresh ∧ o.Clock D.warmup ∧ o.replaced = 0 ∧ o.slots = 0 ∧ o.made = o.nodes.length ∧
    o.nodes.length = max 1 nNodes ∧ (o.nodes.map Fin.val).head? = some 0
  | .init => o.Populated fresh
  | .storeAll i => o.Populated fresh ∧ i ≤ o.nodes.length ∧ o.keys = numberKeys Γ i
  | .run i => o.Staffed Γ nNodes fresh ∧ o.Clock (D.warmup + D.storing + i) ∧ o.replaced = (i + 9) / 10 ∧ i ≤ D.maxIterations
  | .replace => o.Staffed Γ nNodes fresh
  | .install v new => v ≠ 0 ∧ (∃ old, o.nodes[v]? = some old ∧ o.dead old = true) ∧ o.nodes.Nodup ∧ new ∉ o.nodes ∧
    (o.install v new).Populated fresh
  | .introduce n1 n2 => o.Populated fresh ∧ n1 ∈ o.nodes ∧ n2 ∈ o.nodes ∧ n1 ≠ n2
  | .search => o.Staffed Γ nNodes fresh

/-- What a call of the experiment has done to the population. -/
def OwnPost (Γ : Ctx) (D : Durations) (nNodes : Nat) (fresh : Prop) (o o' : Outline N) : ExperimentCall N → Prop
  | .addNodes i n _ => o'.Populated fresh ∧ o'.epoch = o.epoch ∧ o'.ticked = o.ticked ∧ o'.replaced = o.replaced ∧
    o'.slots = o.slots ∧ o'.made = o'.nodes.length ∧ o'.nodes.length = max i n ∧ o'.nodes.head? = o.nodes.head?
  | .ticks k => o' = Outline.tick^[k] o
  | .init => o' = Outline.tick^[D.storing] { o with keys := numberKeys Γ o.nodes.length }
  | .storeAll _ => o' = { o with keys := numberKeys Γ o.nodes.length }
  | .replace => o'.Staffed Γ nNodes fresh ∧ o'.epoch = o.epoch ∧ o'.ticked = o.ticked ∧ o'.replaced = o.replaced + 1
  | .install v new => o' = o.install v new
  | .introduce _ _ => o' = o
  | .search => o' = o
  | _ => True

/-- The contracts of the program. -/
def contract (Γ : Ctx) (D : Durations) (nNodes : Nat) (fresh : Prop) : Contract (RecordedNetwork N × Experiment N)
    (ClientCall (NetworkCall N) (ExperimentCall N)) where
  pre c s :=
    match c with
    | .inside x => NetworkPre (outline s) x
    | .enter x => EnterPre fresh (outline s) x
    | .own d => OwnPre Γ D nNodes fresh (outline s) d
  post c s s' :=
    match c with
    | .inside x => NetworkPost fresh (outline s) (outline s') x
    | .enter x => NetworkPost fresh (outline s) (outline s') x
    | .own d => OwnPost Γ D nNodes fresh (outline s) (outline s') d

/-! ## The calls of the network -/

/-- An outline with the nodes of a network. -/
def view (w : CentralizedNetwork N) (o : Outline N) : Outline N :=
  { o with
    address := fun i => (w.applications i).address
    dead := fun i => (w.applications i).dead
    inhabitants := w.inhabitants
    epoch := w.epoch }

/-- What a call of the network lets the experiment do does not show in the outline, but for the line of a tick. -/
theorem outline_watch {x : NetworkCall N} {R : RecordedNetwork N} {t : Experiment N} {w : CentralizedNetwork N}
    (hx : x ≠ .endTick) :
    outline ({ R.record x with network := w }, Experiment.watch x R t) = view w (outline (R, t)) := by
  cases x with
  | app i c =>
    cases c with
    | fetched fn value =>
      simp only [Experiment.watch]
      split
      · rfl
      · rename_i f hf
        cases value with
        | none =>
          simp [outline, view, Experiment.recordFail, Experiment.print, List.filterMap_cons, Line.ticked, Line.isReplaced]
        | some v =>
          simp [outline, view, Experiment.recordFind, Experiment.print, List.filterMap_cons, Line.ticked, Line.isReplaced]
    | _ => rfl
  | endTick => exact absurd rfl hx
  | _ => rfl

/-- A node that keeps its address and does not die. -/
theorem view_setApplication {R : RecordedNetwork N} {t : Experiment N} {i : Fin N} {app : KademliaNode}
    (haddress : app.address = (R.network.applications i).address) (hdead : app.dead = (R.network.applications i).dead) :
    view (R.network.setApplication i app) (outline (R, t)) = outline (R, t) := by
  have happ : ∀ j, ((R.network.setApplication i app).applications j).address = (R.network.applications j).address ∧
      ((R.network.setApplication i app).applications j).dead = (R.network.applications j).dead := by
    intro j
    by_cases hj : j = i
    · subst hj
      rw [CentralizedNetwork.applications_setApplication_self]
      exact ⟨haddress, hdead⟩
    · rw [CentralizedNetwork.applications_setApplication_of_ne _ hj]
      exact ⟨rfl, rfl⟩
  have h1 : (fun j => ((R.network.setApplication i app).applications j).address) =
      fun j => (R.network.applications j).address := funext (fun j => (happ j).1)
  have h2 : (fun j => ((R.network.setApplication i app).applications j).dead) =
      fun j => (R.network.applications j).dead := funext (fun j => (happ j).2)
  simp only [view, h1, h2]
  rfl

/-- A node that dies. -/
theorem view_die {R : RecordedNetwork N} {t : Experiment N} {i : Fin N} {app : KademliaNode}
    (haddress : app.address = (R.network.applications i).address) (hdead : app.dead = true) :
    view (R.network.setApplication i app) (outline (R, t)) = (outline (R, t)).die i := by
  have h1 : (fun j => ((R.network.setApplication i app).applications j).address) =
      fun j => (R.network.applications j).address := by
    funext j
    by_cases hj : j = i
    · subst hj
      rw [CentralizedNetwork.applications_setApplication_self]
      exact haddress
    · rw [CentralizedNetwork.applications_setApplication_of_ne _ hj]
  have h2 : (fun j => ((R.network.setApplication i app).applications j).dead) =
      Function.update (fun j => (R.network.applications j).dead) i true := by
    funext j
    by_cases hj : j = i
    · subst hj
      rw [CentralizedNetwork.applications_setApplication_self, Function.update_self]
      exact hdead
    · rw [CentralizedNetwork.applications_setApplication_of_ne _ hj, Function.update_of_ne hj]
  simp only [view, h1, h2]
  rfl

/-- A node that settles. -/
theorem view_settle {R : RecordedNetwork N} {t : Experiment N} {i : Fin N} {a : UInt32} :
    view (R.network.settle i a) (outline (R, t)) = (outline (R, t)).settle i a := by
  have h1 : (fun j => ((R.network.settle i a).applications j).address) =
      Function.update (fun j => (R.network.applications j).address) i a := by
    funext j
    simp only [CentralizedNetwork.settle, CentralizedNetwork.setApplication]
    by_cases hj : j = i
    · rw [hj, Function.update_self, Function.update_self]
      rfl
    · rw [Function.update_of_ne hj, Function.update_of_ne hj]
  have h2 : (fun j => ((R.network.settle i a).applications j).dead) = fun j => (R.network.applications j).dead := by
    funext j
    simp only [CentralizedNetwork.settle, CentralizedNetwork.setApplication]
    by_cases hj : j = i
    · rw [hj, Function.update_self]
      rfl
    · rw [Function.update_of_ne hj]
  simp only [view, h1, h2]
  rfl

/-- A call of a node neither kills one nor gives it an address. -/
theorem ne_of_makes {ch : Choice} {n : KademliaNode} {c y : Call} (h : KademliaNode.Makes Γ ch n c y) :
    y ≠ .base .die ∧ ∀ a, y ≠ .base (.setAddress a) := by
  constructor
  · rintro rfl
    cases h
  · rintro a rfl
    cases h

/-- A node that settles lives. -/
theorem live_settle {o : Outline N} {i : Fin N} {a : UInt32} (h : o.Live) (hi : o.dead i = false) : (o.settle i a).Live := by
  intro b j hj
  have hj : (o.inhabitants.insert a i).find? b = some j := hj
  rw [SortedMap.find?_insert] at hj
  split at hj
  · cases hj
    exact hi
  · exact h b j hj

variable {s s' : RecordedNetwork N × Experiment N} {cs : List (ClientCall (NetworkCall N) (ExperimentCall N))}
  {r : NetworkChoice × ExperimentChoice}

/-- A call of the network that runs: the network after it, and the calls that it makes. -/
theorem exec_inside {x : NetworkCall N} (h : (experimentProgram Γ D N).exec r (.inside x) s = some (s', cs)) :
    x.isUserCode = true ∧ s' = s ∧ cs = [] ∨
      ∃ w xs, CentralizedNetwork.exec Γ r.1 x s.1.network = some (w, xs) ∧
        s' = ({ s.1.record x with network := w }, Experiment.watch x s.1 s.2) ∧ cs = xs.map .inside := by
  simp only [experimentProgram, Client.program] at h
  split at h
  · next hwaits =>
    cases h
    exact Or.inl ⟨hwaits, rfl, rfl⟩
  · obtain ⟨p, hp, heq⟩ := Option.map_eq_some_iff.1 h
    obtain ⟨q, hq, rfl⟩ := Option.map_eq_some_iff.1 hp
    cases heq
    exact Or.inr ⟨q.1, q.2, hq, rfl, rfl⟩

/-- Calls of the network that leave the population as it is. -/
theorem leads_of_quiet (xs : List (NetworkCall N)) {o : Outline N}
    (hpre : ∀ x ∈ xs, NetworkPre o x) (hpost : ∀ x ∈ xs, ∀ o o', NetworkPost fresh o o' x → o' = o) (ho : outline s = o) :
    (contract Γ D nNodes fresh).Leads (xs.map .inside) (fun s' => outline s' = o) s := by
  refine Contract.leads_of_kept (I := fun s => outline s = o) ?_ ?_ (fun _ h => h) ho
  · intro c hc s' hs'
    obtain ⟨x, hx, rfl⟩ := List.mem_map.1 hc
    change NetworkPre (outline s') x
    rw [hs']
    exact hpre x hx
  · intro c hc s₁ s₂ hs₁ hs₂
    obtain ⟨x, hx, rfl⟩ := List.mem_map.1 hc
    exact (hpost x hx _ _ hs₂).trans hs₁

/-- A call of a node keeps its contract. -/
theorem app_keeps {i : Fin N} {c : Call} (h : (experimentProgram Γ D N).exec r (.inside (.app i c)) s = some (s', cs))
    (hpre : NetworkPre (outline s) (.app i c)) :
    (contract Γ D nNodes fresh).Leads cs (fun s' => NetworkPost fresh (outline s) (outline s') (.app i c)) s' := by
  rcases exec_inside h with ⟨huser, rfl, rfl⟩ | ⟨w, xs, hw, rfl, rfl⟩
  · have hc : c ≠ .base .die := by
      rintro rfl
      cases huser
    exact (if_neg hc).symm
  · obtain ⟨q, hq, heq⟩ := CentralizedNetwork.exec_app hw
    cases heq
    have hwatch := outline_watch (x := .app i c) (R := s.1) (t := s.2)
      (w := s.1.network.setApplication i q.1) (by rintro ⟨⟩)
    have hquiet : ∀ x ∈ q.2.map (NetworkCall.app i), ∀ o o' : Outline N, NetworkPost fresh o o' x → o' = o := by
      intro x hx o o' ho
      obtain ⟨y, hy, rfl⟩ := List.mem_map.1 hx
      exact ho.trans (if_neg (ne_of_makes (KademliaNode.exec_makes hq y hy)).1)
    by_cases hc : c = .base .die
    · subst hc
      have haddress := KademliaNode.exec_address hq (by rintro a ⟨⟩)
      have hdead : q.1.dead = true := by
        cases hq
        rfl
      have hnone : q.2 = [] := by
        cases hq
        rfl
      rw [hnone]
      exact hwatch.trans ((view_die haddress hdead).trans (if_pos rfl).symm)
    · obtain ⟨hlive, hdead, hset⟩ := hpre.resolve_left hc
      have hsame := hwatch.trans (view_setApplication (KademliaNode.exec_address hq hset) (KademliaNode.exec_dead hq hc))
      refine (leads_of_quiet _ ?_ hquiet hsame).mono (fun s₁ hs₁ => hs₁.trans (if_neg hc).symm)
      intro x hx
      obtain ⟨y, hy, rfl⟩ := List.mem_map.1 hx
      exact Or.inr ⟨hlive, hdead, (ne_of_makes (KademliaNode.exec_makes hq y hy)).2⟩

/-- Every call of the network keeps its contract. -/
theorem inside_keeps {x : NetworkCall N} (h : (experimentProgram Γ D N).exec r (.inside x) s = some (s', cs))
    (hpre : NetworkPre (outline s) x)
    (hfresh : fresh → ∀ i, x = .add i → (outline s).Unused (s.1.network.getNewAddress r.1.attempts)) :
    (contract Γ D nNodes fresh).Leads cs (fun s' => NetworkPost fresh (outline s) (outline s') x) s' := by
  by_cases happ : ∃ i c, x = .app i c
  · obtain ⟨i, c, rfl⟩ := happ
    exact app_keeps h hpre
  rcases exec_inside h with ⟨huser, -, -⟩ | ⟨w, xs, hw, rfl, rfl⟩
  · cases x with
    | app i c => exact absurd ⟨i, c, rfl⟩ happ
    | _ => cases huser
  have hwatch : x ≠ .endTick → outline ({ s.1.record x with network := w }, Experiment.watch x s.1 s.2) =
      view w (outline s) := outline_watch (R := s.1) (t := s.2)
  cases x with
  | app i c => exact absurd ⟨i, c, rfl⟩ happ
  | call i c =>
    cases hw
    refine ⟨Or.inr ⟨hpre.1, hpre.2.1, ?_⟩, fun s₁ hs₁ => ?_⟩
    · rintro a rfl
      cases hpre.2.2
    · refine hs₁.trans (if_neg ?_)
      rintro rfl
      cases hpre.2.2
  | tick =>
    cases hw
    refine ⟨hpre, fun s₁ hs₁ => ⟨?_, fun s₂ hs₂ => ?_⟩⟩
    · exact (congrArg Outline.Live (show outline s₁ = outline s from hs₁)).mpr hpre
    · exact hs₂.trans (congrArg Outline.tick hs₁)
  | inhabitant after =>
    cases hw
    have hsame := hwatch (by rintro ⟨⟩)
    cases hnext : s.1.network.inhabitants.next after with
    | none => exact hsame
    | some p =>
      obtain ⟨address, i⟩ := p
      have hi : (outline s).dead i = false := hpre address i (SortedMap.find?_eq_some_iff.2 (SortedMap.mem_of_next hnext))
      refine leads_of_quiet [.call i (.tick _), .outbound i 0, .inhabitant (some address)] ?_ ?_ hsame
      · intro x hx
        simp only [List.mem_cons, List.not_mem_nil, or_false] at hx
        rcases hx with rfl | rfl | rfl
        · exact ⟨hpre, hi, rfl⟩
        · exact ⟨hpre, hi⟩
        · exact hpre
      · intro x hx o o' ho
        simp only [List.mem_cons, List.not_mem_nil, or_false] at hx
        rcases hx with rfl | rfl | rfl <;> exact ho
  | outbound i total =>
    cases hw
    have hunqueue : view (s.1.network.setApplication i (s.1.network.applications i).unqueueOut) (outline (s.1, s.2)) =
        outline (s.1, s.2) :=
      view_setApplication rfl rfl
    have hsame := (hwatch (by rintro ⟨⟩)).trans hunqueue
    have hmakes : ∀ x ∈ (s.1.network.outbound i total).2, NetworkMakes Γ r.1 s.1.network (.outbound i total) x :=
      CentralizedNetwork.outbound_makes i total
    refine leads_of_quiet (s.1.network.outbound i total).2 ?_ ?_ hsame
    · intro x hx
      cases hmakes x hx with
      | sendAgain => exact ⟨hpre.1, hpre.2, rfl⟩
      | passAlong => exact hpre.1
      | nextOutbound => exact hpre
    · intro x hx o o' ho
      cases hmakes x hx <;> exact ho
  | passAlongMessage m =>
    cases hw
    have hsame := hwatch (by rintro ⟨⟩)
    refine leads_of_quiet (s.1.network.passAlongMessage m) ?_ ?_ hsame
    · intro x hx
      simp only [CentralizedNetwork.passAlongMessage] at hx
      split at hx
      · cases hx
      · rename_i i hf
        rw [List.mem_singleton.1 hx]
        exact ⟨hpre, hpre _ _ hf, rfl⟩
    · intro x hx o o' ho
      simp only [CentralizedNetwork.passAlongMessage] at hx
      split at hx
      · cases hx
      · rw [List.mem_singleton.1 hx] at ho
        exact ho
  | endTick =>
    cases hw
    rfl
  | add i =>
    cases hw
    have hdrawn : (outline s).Drawn fresh (s.1.network.getNewAddress r.1.attempts) :=
      ⟨CentralizedNetwork.find?_getNewAddress, fun hf => hfresh hf i rfl⟩
    by_cases hzero : s.1.network.getNewAddress r.1.attempts = 0
    · have hadd : s.1.network.add r.1.attempts i = [] := if_pos hzero
      rw [hadd]
      exact ⟨_, hdrawn, (if_pos hzero).symm⟩
    · have hadd : s.1.network.add r.1.attempts i = [.settle i (s.1.network.getNewAddress r.1.attempts)] := if_neg hzero
      rw [hadd]
      exact ⟨hpre, fun s₁ hs₁ => ⟨_, hdrawn, hs₁.trans (if_neg hzero).symm⟩⟩
  | settle i a =>
    cases hw
    have hsame := (hwatch (by rintro ⟨⟩)).trans view_settle
    refine ⟨⟨?_, ?_, rfl⟩, fun s₁ hs₁ => hs₁.trans hsame⟩
    · exact (congrArg Outline.Live hsame).mpr (live_settle hpre.1 hpre.2)
    · exact (congrArg (fun o : Outline N => o.dead i) hsame).trans hpre.2
  | remove i =>
    cases hw
    rfl

/-! ## The calls of the experiment -/

/-- A call of the experiment to the network keeps its contract. -/
theorem enter_keeps {x : NetworkCall N} (h : (experimentProgram Γ D N).exec r (.enter x) s = some (s', cs))
    (hpre : EnterPre fresh (outline s) x) :
    (contract Γ D nNodes fresh).Leads cs (fun s' => NetworkPost fresh (outline s) (outline s') x) s' := by
  obtain ⟨-, hp⟩ := Option.ite_none_right_eq_some.1 h
  cases hp
  refine ⟨?_, fun _ hs₁ => hs₁⟩
  cases x with
  | app i c =>
    rcases hpre with rfl | ⟨hlive, hdead, -, hasks⟩
    · exact Or.inl rfl
    · refine Or.inr ⟨hlive, hdead, ?_⟩
      cases hasks <;> (rintro a ⟨⟩)
  | add i => exact ⟨hpre.1, hpre.2.1⟩
  | tick => exact hpre
  | remove i => trivial
  | _ => exact hpre.elim

variable {o o' : Outline N} {i : Fin N} {c : Call}

/-- What is asked of a node of the population. -/
theorem enterPre_app (h : o.Populated fresh) (hi : i ∈ o.nodes) (hc : Asks fresh o i c) : EnterPre fresh o (.app i c) :=
  Or.inr ⟨h.live, h.alive i hi, fun hf => h.settled hf i hi, hc⟩

/-- What is asked of a node leaves the population as it is. -/
theorem eq_of_asked (h : NetworkPost fresh o o' (.app i c)) (hc : Asks fresh o i c) : o' = o := by
  refine h.trans (if_neg ?_)
  cases hc <;> rintro ⟨⟩

theorem clock_tick {e : Nat} (h : o.Clock e) : o.tick.Clock (e + 1) := by
  refine ⟨?_, ?_⟩
  · exact (congrArg (· + 1) h.1).trans (UInt64.ofNat_add e 1).symm
  · change o.epoch :: o.ticked = _
    rw [h.1, h.2, List.range_succ, List.map_append, List.reverse_append]
    rfl

theorem clock_ticks {e : Nat} (k : Nat) (h : o.Clock e) : (Outline.tick^[k] o).Clock (e + k) := by
  induction k generalizing o e with
  | zero => exact h
  | succ k ih =>
    rw [Function.iterate_succ_apply, ← Nat.add_assoc, Nat.add_right_comm]
    exact ih (clock_tick h)

/-- Ticks change the time only. -/
theorem iterate_tick (k : Nat) : ∃ e l, Outline.tick^[k] o = { o with epoch := e, ticked := l } := by
  induction k generalizing o with
  | zero => exact ⟨_, _, rfl⟩
  | succ k ih =>
    obtain ⟨e, l, h⟩ := ih (o := o.tick)
    exact ⟨e, l, (Function.iterate_succ_apply ..).trans h⟩

theorem populated_ticks (k : Nat) (h : o.Populated fresh) : (Outline.tick^[k] o).Populated fresh := by
  obtain ⟨e, l, heq⟩ := iterate_tick (o := o) k
  rw [heq]
  exact ⟨h.nodup, h.made, h.alive, h.inhabits, h.retired, h.unmade, h.settled, h.unique⟩

theorem staffed_ticks (k : Nat) (h : o.Staffed Γ nNodes fresh) : (Outline.tick^[k] o).Staffed Γ nNodes fresh := by
  obtain ⟨e, l, heq⟩ := iterate_tick (o := o) k
  have hpopulated := populated_ticks k h.populated
  rw [heq] at hpopulated ⊢
  exact ⟨hpopulated, h.zero, h.length, h.made, h.slots, h.keys⟩

/-- A node that was killed and removed is no inhabitant. -/
theorem live_remove (old : Fin N) (h : o.Populated fresh) : ((o.die old).remove old).Live := by
  intro b j hj
  have hj : (o.inhabitants.erase (o.address old)).find? b = some j := hj
  rw [SortedMap.find?_erase] at hj
  split at hj
  · cases hj
  · next hb =>
    obtain ⟨⟨hmem, hb'⟩, -⟩ := (h.inhabits b j).1 hj
    have hne : j ≠ old := fun he => hb (he ▸ hb'.symm)
    exact (Function.update_of_ne hne ..).trans (h.alive j hmem)

/-- The call that runs, the state after its body, and the calls that the body makes. -/
theorem exec_own {d : ExperimentCall N} (h : (experimentProgram Γ D N).exec r (.own d) s = some (s', cs)) :
    ∃ t xs ds, Experiment.exec Γ D r.2 d s.1 s.2 = some (t, xs, ds) ∧ s' = (s.1, t) ∧
      cs = xs.map .enter ++ ds.map .own := by
  obtain ⟨p, hp, heq⟩ := Option.map_eq_some_iff.1 h
  cases heq
  exact ⟨_, _, _, hp, rfl, rfl⟩

/-- The next node. -/
theorem create_cases {t : Experiment N} {p : Fin N × Experiment N} (h : t.create = some p) :
    p.1.val = t.made ∧ p.2 = { t with made := t.made + 1 } := by
  unfold Experiment.create at h
  split at h
  · cases h
    exact ⟨rfl, rfl⟩
  · cases h

/-- A new node is added, and pings node zero. -/
theorem addNodes_keeps {i n : Nat} {a : UInt32}
    (h : (experimentProgram Γ D N).exec r (.own (.addNodes i n a)) s = some (s', cs))
    (hpre : OwnPre Γ D nNodes fresh (outline s) (.addNodes i n a)) :
    (contract Γ D nNodes fresh).Leads cs (fun s' => OwnPost Γ D nNodes fresh (outline s) (outline s') (.addNodes i n a)) s' := by
  obtain ⟨t, xs, ds, he, rfl, rfl⟩ := exec_own h
  obtain ⟨hn, hpop, hclock, hreplaced, hslots, hmade, hlength, z, hz, hzero, haddress⟩ := hpre
  simp only [Experiment.exec, Experiment.addNodes] at he
  split at he
  · next hi =>
    obtain ⟨p, hp, heq⟩ := Option.map_eq_some_iff.1 he
    obtain ⟨hnew, hp2⟩ := create_cases hp
    rw [hp2] at heq
    cases heq
    have hzmem : z ∈ (outline s).nodes := List.mem_of_mem_head? hz
    have hne : z ≠ p.1 := fun he => hpop.not_mem hnew (he ▸ hzmem)
    refine ⟨⟨hpop.live, hpop.unmade p.1 hnew.ge⟩, fun s₁ hs₁ => ?_⟩
    obtain ⟨a', ha', hs₁⟩ := hs₁
    have hpop₁ : (outline s₁).Populated fresh := hs₁ ▸ hpop.join hnew ha'
    have hother : fresh → a ≠ (outline s₁).address p.1 := by
      intro hf he
      have hunused := ha'.2 hf
      have hself : (outline s₁).address p.1 = a' := hs₁ ▸ Outline.address_add_self hunused.1
      exact hunused.2 z (haddress.trans (he.trans hself))
    obtain ⟨addresses, inhabitants, hadd, hothers⟩ := Outline.exists_add ((outline s).make.push p.1) p.1 a'
    replace hs₁ := hs₁.trans hadd
    have hmem : p.1 ∈ (outline s₁).nodes := by
      rw [hs₁]
      exact List.mem_append_right _ (List.mem_singleton_self _)
    refine ⟨enterPre_app hpop₁ hmem (.ping hother), fun s₂ hs₂ => ?_⟩
    have hs₂ : outline s₂ = outline s₁ := eq_of_asked hs₂ (Asks.ping hother)
    have hhead : (outline s₁).nodes.head? = (outline s).nodes.head? := by
      rw [hs₁]
      change ((outline s).nodes ++ [p.1]).head? = _
      rw [List.head?_append_of_ne_nil _ (List.ne_nil_of_mem hzmem)]
    have hlength₁ : (outline s₁).nodes.length = i + 1 := by
      rw [hs₁]
      change ((outline s).nodes ++ [p.1]).length = _
      rw [List.length_append, hlength]
      rfl
    have hfields : (outline s₁).epoch = (outline s).epoch ∧ (outline s₁).ticked = (outline s).ticked ∧
        (outline s₁).replaced = (outline s).replaced ∧ (outline s₁).slots = (outline s).slots ∧
        (outline s₁).made = (outline s).made + 1 ∧ (outline s₁).address z = (outline s).address z := by
      rw [hs₁]
      exact ⟨rfl, rfl, rfl, rfl, rfl, hothers z hne⟩
    obtain ⟨hepoch, hticked, hrep, hslots₁, hmade₁, hzaddress⟩ := hfields
    change OwnPre Γ D nNodes fresh (outline s₂) (.addNodes (i + 1) n a) ∧ _
    rw [hs₂]
    refine ⟨⟨hn, hpop₁, ⟨hepoch.trans hclock.1, hticked.trans hclock.2⟩, hrep.trans hreplaced,
      hslots₁.trans hslots, hmade₁.trans (congrArg (· + 1) hmade), hlength₁, z, hhead.trans hz, hzero,
      hzaddress.trans haddress⟩, fun s₃ hs₃ => ?_⟩
    change OwnPost Γ D nNodes fresh (outline s₂) (outline s₃) (.addNodes (i + 1) n a) at hs₃
    rw [hs₂] at hs₃
    obtain ⟨h1, h2, h3, h4, h5, h6, h7, h8⟩ := hs₃
    refine ⟨h1, h2.trans hepoch, h3.trans hticked, h4.trans hrep, h5.trans hslots₁, h6, h7.trans ?_, h8.trans hhead⟩
    omega
  · next hi =>
    cases he
    exact ⟨hpop, rfl, rfl, rfl, rfl, hmade.trans hlength.symm, by rw [hlength]; omega, rfl⟩

/-- Every node stores its number. -/
theorem storeAll_keeps {i : Nat} (h : (experimentProgram Γ D N).exec r (.own (.storeAll i)) s = some (s', cs))
    (hpre : OwnPre Γ D nNodes fresh (outline s) (.storeAll i)) :
    (contract Γ D nNodes fresh).Leads cs (fun s' => OwnPost Γ D nNodes fresh (outline s) (outline s') (.storeAll i)) s' := by
  obtain ⟨t, xs, ds, he, rfl, rfl⟩ := exec_own h
  obtain ⟨hpop, hi, hkeys⟩ := hpre
  simp only [Experiment.exec, Experiment.storeAll, Option.some.injEq] at he
  split at he
  · next hnone =>
    cases he
    have hlength : i = (outline s).nodes.length := Nat.le_antisymm hi (List.getElem?_eq_none_iff.1 hnone)
    change outline s = { outline s with keys := numberKeys Γ (outline s).nodes.length }
    rw [← hlength, ← hkeys]
  · next node hnode =>
    cases he
    have hmem : node ∈ (outline s).nodes := List.mem_of_getElem? hnode
    have hlt : i < (outline s).nodes.length := (List.getElem?_eq_some_iff.1 hnode).1
    refine ⟨Or.inr ⟨hpop.live, hpop.alive node hmem, fun hf => hpop.settled hf node hmem, .store _⟩, fun s₁ hs₁ => ?_⟩
    have hs₁ := eq_of_asked hs₁ (.store _ : Asks fresh _ _ _)
    have hkeys₁ : (outline s).keys ++ [Γ.sha1 (toBytes i)] = numberKeys Γ (i + 1) := by
      rw [hkeys, numberKeys, numberKeys, List.range_succ, List.map_append]
      rfl
    have hs₁ : outline s₁ = { outline s with keys := numberKeys Γ (i + 1) } := by
      rw [hs₁, ← hkeys₁]
      rfl
    change OwnPre Γ D nNodes fresh (outline s₁) (.storeAll (i + 1)) ∧ _
    rw [hs₁]
    refine ⟨⟨⟨hpop.nodup, hpop.made, hpop.alive, hpop.inhabits, hpop.retired, hpop.unmade, hpop.settled, hpop.unique⟩, hlt, rfl⟩,
      fun s₂ hs₂ => ?_⟩
    change outline s₂ = { outline s₁ with keys := numberKeys Γ (outline s₁).nodes.length } at hs₂
    rw [hs₁] at hs₂
    exact hs₂

theorem outline_replaced (v : Nat) : outline (s.1, s.2.print (.replaced v)) = (outline s).announce := by
  have hcount : (Line.replaced v :: s.2.transcript).countP Line.isReplaced = s.2.transcript.countP Line.isReplaced + 1 :=
    List.countP_cons_of_pos rfl
  simp only [outline, Experiment.print, hcount]
  rfl

/-- A node is replaced. -/
theorem replace_keeps (h : (experimentProgram Γ D N).exec r (.own .replace) s = some (s', cs))
    (hpre : OwnPre Γ D nNodes fresh (outline s) .replace) :
    (contract Γ D nNodes fresh).Leads cs (fun s' => OwnPost Γ D nNodes fresh (outline s) (outline s') .replace) s' := by
  obtain ⟨t, xs, ds, he, rfl, rfl⟩ := exec_own h
  simp only [Experiment.exec, Experiment.replace, Option.ite_none_left_eq_some] at he
  obtain ⟨hv, he⟩ := he
  obtain ⟨old, hold, he⟩ := Option.bind_eq_some_iff.1 he
  obtain ⟨p, hp, heq⟩ := Option.map_eq_some_iff.1 he
  obtain ⟨hnew, hp2⟩ := create_cases hp
  rw [hp2] at heq
  cases heq
  have hpop : (outline s).announce.Populated fresh :=
    ⟨hpre.populated.nodup, hpre.populated.made, hpre.populated.alive, hpre.populated.inhabits, hpre.populated.retired,
      hpre.populated.unmade, hpre.populated.settled, hpre.populated.unique⟩
  have hmem : old ∈ (outline s).nodes := List.mem_of_getElem? hold
  have hne : p.1 ≠ old := fun he => hpop.not_mem hnew (he ▸ hmem)
  have hs₀ : outline (s.1, { s.2.print (.replaced r.2.victim) with made := s.2.made + 1 }) = (outline s).announce.make :=
    congrArg Outline.make (outline_replaced r.2.victim)
  refine ⟨Or.inl rfl, fun s₁ hs₁ => ⟨trivial, fun s₂ hs₂ => ?_⟩⟩
  have hs₁ : outline s₁ = (outline s).announce.make.die old := (hs₁.trans (if_pos rfl)).trans (congrArg (Outline.die · old) hs₀)
  have hs₂ : outline s₂ = ((outline s).announce.make.die old).remove old := hs₂.trans (congrArg (Outline.remove · old) hs₁)
  have hfresh := hpop.unmade p.1 hnew.ge
  have hlive := live_remove old hpop
  refine ⟨?_, fun s₃ hs₃ => ?_⟩
  · change (outline s₂).Live ∧ (outline s₂).dead p.1 = false ∧ (outline s₂).address p.1 = 0
    rw [hs₂]
    exact ⟨hlive, (Function.update_of_ne hne ..).trans hfresh.1, hfresh.2⟩
  obtain ⟨a, ha, hs₃⟩ := hs₃
  rw [hs₂] at ha hs₃
  have hinstalled := hpop.replace hold hnew ha
  rw [← hs₃] at hinstalled
  obtain ⟨addresses, inhabitants, hadd, -⟩ := Outline.exists_add (((outline s).announce.make.die old).remove old) p.1 a
  replace hs₃ := hs₃.trans hadd
  change OwnPre Γ D nNodes fresh (outline s₃) (.install r.2.victim p.1) ∧ _
  rw [hs₃] at hinstalled ⊢
  refine ⟨⟨hv, ⟨old, hold, Function.update_self ..⟩, hpre.populated.nodup, hpop.not_mem hnew, hinstalled⟩, fun s₄ hs₄ => ?_⟩
  have hs₄ : outline s₄ = (outline s₃).install r.2.victim p.1 := hs₄
  change (outline s₄).Staffed Γ nNodes fresh ∧ (outline s₄).epoch = _ ∧ (outline s₄).ticked = _ ∧ (outline s₄).replaced = _
  rw [hs₄, hs₃]
  refine ⟨⟨hinstalled, ?_, ?_, ?_, ?_, ?_⟩, rfl, rfl, rfl⟩
  · refine Eq.trans ?_ hpre.zero
    change (((outline s).nodes.set r.2.victim p.1).map Fin.val).head? = _
    rw [List.head?_map, List.head?_map, List.head?_eq_getElem?, List.head?_eq_getElem?, List.getElem?_set_ne hv]
  · exact List.length_set.trans hpre.length
  · refine (congrArg (· + 1) hpre.made).trans ?_
    exact (Nat.add_assoc ..).trans (congrArg (· + ((outline s).replaced + 1)) List.length_set.symm)
  · exact hpre.slots.trans List.length_set.symm
  · exact hpre.keys.trans (congrArg (numberKeys Γ) List.length_set.symm)

/-- Node zero is added. -/
theorem main_keeps {n : Nat} (h : (experimentProgram Γ D N).exec r (.own (.main n)) s = some (s', cs))
    (hpre : OwnPre Γ D nNodes fresh (outline s) (.main n)) : (contract Γ D nNodes fresh).Leads cs (fun _ => True) s' := by
  obtain ⟨t, xs, ds, he, rfl, rfl⟩ := exec_own h
  obtain ⟨hn, hstart⟩ := hpre
  obtain ⟨p, hp, heq⟩ := Option.map_eq_some_iff.1 he
  obtain ⟨hnew, hp2⟩ := create_cases hp
  rw [hp2] at heq
  cases heq
  have hmade : p.1.val = (Outline.start : Outline N).made := hnew.trans (congrArg Outline.made hstart)
  have hs₀ : outline (s.1, { s.2 with made := s.2.made + 1, nodes := s.2.nodes ++ [p.1] }) = Outline.start.make.push p.1 :=
    congrArg (fun o : Outline N => o.make.push p.1) hstart
  refine ⟨?_, fun s₁ hs₁ => ⟨?_, fun _ _ => trivial⟩⟩
  · change (outline _).Live ∧ (outline _).dead p.1 = false ∧ (outline _).address p.1 = 0
    rw [hs₀]
    exact ⟨(Outline.populated_start : Outline.start.Populated fresh).live, rfl, rfl⟩
  · obtain ⟨a, ha, hs₁⟩ := hs₁
    rw [hs₀] at ha hs₁
    have hpop₁ := Outline.populated_start.join hmade ha
    rw [← hs₁] at hpop₁
    obtain ⟨addresses, inhabitants, hadd, -⟩ := Outline.exists_add (Outline.start.make.push p.1) p.1 a
    replace hs₁ := hs₁.trans hadd
    change OwnPre Γ D nNodes fresh (outline s₁) (.startup n p.1)
    rw [hs₁] at hpop₁ ⊢
    exact ⟨hn, hpop₁, ⟨rfl, rfl⟩, rfl, rfl, rfl, rfl, hmade⟩

/-- The rest of `main`: the other nodes, a hundred ticks, the experiment. -/
theorem startup_keeps {n : Nat} {z : Fin N} (h : (experimentProgram Γ D N).exec r (.own (.startup n z)) s = some (s', cs))
    (hpre : OwnPre Γ D nNodes fresh (outline s) (.startup n z)) : (contract Γ D nNodes fresh).Leads cs (fun _ => True) s' := by
  obtain ⟨t, xs, ds, he, rfl, rfl⟩ := exec_own h
  cases he
  obtain ⟨hn, hpop, hclock, hreplaced, hslots, hmade, hnodes, hz⟩ := hpre
  refine ⟨⟨hn, hpop, hclock, hreplaced, hslots, hmade, ?_, z, ?_, hz, rfl⟩, fun s₁ hs₁ => ?_⟩
  · rw [hnodes]
    rfl
  · rw [hnodes]
    rfl
  obtain ⟨hpop₁, hepoch, hticked, hreplaced₁, hslots₁, hmade₁, hlength, hhead⟩ := hs₁
  refine ⟨hpop₁, fun s₂ hs₂ => ⟨?_, fun _ _ => trivial⟩⟩
  have hs₂ : outline s₂ = Outline.tick^[D.warmup] (outline s₁) := hs₂
  have hclock₂ : (outline s₂).Clock D.warmup := by
    have hticks := clock_ticks D.warmup ⟨hepoch.trans hclock.1, hticked.trans hclock.2⟩
    rwa [Nat.zero_add, ← hs₂] at hticks
  obtain ⟨e, l, heq⟩ := iterate_tick (o := outline s₁) D.warmup
  have hsame : (outline s₂).replaced = (outline s₁).replaced ∧ (outline s₂).slots = (outline s₁).slots ∧
      (outline s₂).made = (outline s₁).made ∧ (outline s₂).nodes = (outline s₁).nodes := by
    rw [hs₂, heq]
    exact ⟨rfl, rfl, rfl, rfl⟩
  obtain ⟨hreplaced₂, hslots₂, hmade₂, hnodes₂⟩ := hsame
  refine ⟨hs₂ ▸ populated_ticks D.warmup hpop₁, hclock₂, hreplaced₂.trans (hreplaced₁.trans hreplaced),
    hslots₂.trans (hslots₁.trans hslots), ?_, ?_, ?_⟩
  · rw [hmade₂, hmade₁, hnodes₂]
  · rw [hnodes₂, hlength, hn]
  · have hhead' : (outline s).nodes.head? = some z := by
      rw [hnodes]
      rfl
    rw [hnodes₂, List.head?_map, hhead, hhead']
    exact congrArg some hz

/-- The experiment is made: it initializes itself, and runs. -/
theorem experiment_keeps (h : (experimentProgram Γ D N).exec r (.own .experiment) s = some (s', cs))
    (hpre : OwnPre Γ D nNodes fresh (outline s) .experiment) : (contract Γ D nNodes fresh).Leads cs (fun _ => True) s' := by
  obtain ⟨t, xs, ds, he, rfl, rfl⟩ := exec_own h
  cases he
  obtain ⟨hpop, hclock, hreplaced, -, hmade, hlength, hzero⟩ := hpre
  have hpop' : ({ outline s with slots := (outline s).nodes.length } : Outline N).Populated fresh :=
    ⟨hpop.nodup, hpop.made, hpop.alive, hpop.inhabits, hpop.retired, hpop.unmade, hpop.settled, hpop.unique⟩
  have hs₀ : outline (s.1, { s.2 with waiting := List.replicate s.2.nodes.length false }) =
      { outline s with slots := (outline s).nodes.length } := by
    simp only [outline, List.length_replicate]
  refine ⟨?_, fun s₁ hs₁ => ⟨?_, fun _ _ => trivial⟩⟩
  · change (outline _).Populated fresh
    rw [hs₀]
    exact hpop'
  · have hs₁ : outline s₁ = Outline.tick^[D.storing] { outline s with
        slots := (outline s).nodes.length, keys := numberKeys Γ (outline s).nodes.length } := by
      refine Eq.trans hs₁ ?_
      rw [hs₀]
    change OwnPre Γ D nNodes fresh (outline s₁) (.run 0)
    have hstaffed : ({ outline s with
        slots := (outline s).nodes.length, keys := numberKeys Γ (outline s).nodes.length } : Outline N).Staffed Γ nNodes fresh :=
      ⟨⟨hpop.nodup, hpop.made, hpop.alive, hpop.inhabits, hpop.retired, hpop.unmade, hpop.settled, hpop.unique⟩, hzero, hlength,
        hmade.trans (congrArg ((outline s).nodes.length + ·) hreplaced.symm), rfl, rfl⟩
    refine ⟨hs₁ ▸ staffed_ticks D.storing hstaffed, hs₁ ▸ clock_ticks (e := D.warmup) D.storing hclock, ?_, Nat.zero_le _⟩
    obtain ⟨e, l, heq⟩ := iterate_tick (o := { outline s with
      slots := (outline s).nodes.length, keys := numberKeys Γ (outline s).nodes.length }) D.storing
    rw [hs₁, heq]
    exact hreplaced

/-- The experiment stores, and waits five hundred ticks. -/
theorem init_keeps (h : (experimentProgram Γ D N).exec r (.own .init) s = some (s', cs))
    (hpop : OwnPre Γ D nNodes fresh (outline s) .init) :
    (contract Γ D nNodes fresh).Leads cs (fun s' => OwnPost Γ D nNodes fresh (outline s) (outline s') .init) s' := by
  obtain ⟨t, xs, ds, he, rfl, rfl⟩ := exec_own h
  cases he
  refine ⟨⟨⟨hpop.nodup, hpop.made, hpop.alive, hpop.inhabits, hpop.retired, hpop.unmade, hpop.settled, hpop.unique⟩,
    Nat.zero_le _, rfl⟩, fun s₁ hs₁ => ⟨?_, fun s₂ hs₂ => ?_⟩⟩
  · have hs₁ : outline s₁ = { outline s with keys := numberKeys Γ (outline s).nodes.length } := hs₁
    change (outline s₁).Populated fresh
    rw [hs₁]
    exact ⟨hpop.nodup, hpop.made, hpop.alive, hpop.inhabits, hpop.retired, hpop.unmade, hpop.settled, hpop.unique⟩
  · exact Eq.trans hs₂ (congrArg (Outline.tick^[D.storing]) hs₁)

/-- One iteration: the replacement every tenth time, the search, the tick. -/
theorem run_keeps {i : Nat} (h : (experimentProgram Γ D N).exec r (.own (.run i)) s = some (s', cs))
    (hpre : OwnPre Γ D nNodes fresh (outline s) (.run i)) : (contract Γ D nNodes fresh).Leads cs (fun _ => True) s' := by
  obtain ⟨t, xs, ds, he, rfl, rfl⟩ := exec_own h
  cases he
  obtain ⟨hstaffed, hclock, hreplaced, hi⟩ := hpre
  -- The search and the tick, from where the replacement leaves the population.
  have hrest : ∀ s₁ : RecordedNetwork N × Experiment N, (outline s₁).Staffed Γ nNodes fresh →
      (outline s₁).Clock (D.warmup + D.storing + i) → (outline s₁).replaced = (i + 1 + 9) / 10 → i < D.maxIterations →
      (contract Γ D nNodes fresh).Leads [.own .search, .own (.ticks 1), .own (.run (i + 1))] (fun _ => True) s₁ := by
    intro s₁ hst hcl hrep hlt
    refine ⟨hst, fun s₂ hs₂ => ⟨?_, fun s₃ hs₃ => ⟨?_, fun _ _ => trivial⟩⟩⟩
    · change (outline s₂).Populated fresh
      rw [show outline s₂ = outline s₁ from hs₂]
      exact hst.populated
    · have hs₃ : outline s₃ = Outline.tick^[1] (outline s₁) := Eq.trans hs₃ (congrArg Outline.tick hs₂)
      change OwnPre Γ D nNodes fresh (outline s₃) (.run (i + 1))
      rw [hs₃]
      exact ⟨staffed_ticks 1 hst, clock_ticks 1 hcl, hrep, hlt⟩
  split_ifs with hlt hten
  · refine ⟨hstaffed, fun s₁ hs₁ => ?_⟩
    obtain ⟨hst, hepoch, hticked, hrep⟩ := hs₁
    refine hrest s₁ hst ⟨hepoch.trans hclock.1, hticked.trans hclock.2⟩ ?_ hlt
    rw [hrep, hreplaced]
    omega
  · refine hrest (s.1, s.2) hstaffed hclock ?_ hlt
    rw [hreplaced]
    omega
  · trivial

/-- A new node is put into the slot, and introduced to node zero. -/
theorem install_keeps {v : Nat} {new : Fin N} (h : (experimentProgram Γ D N).exec r (.own (.install v new)) s = some (s', cs))
    (hpre : OwnPre Γ D nNodes fresh (outline s) (.install v new)) :
    (contract Γ D nNodes fresh).Leads cs (fun s' => OwnPost Γ D nNodes fresh (outline s) (outline s') (.install v new)) s' := by
  obtain ⟨t, xs, ds, he, rfl, rfl⟩ := exec_own h
  obtain ⟨hv, ⟨old, hold, -⟩, -, -, hpop⟩ := hpre
  have hlt : v < s.2.nodes.length := (List.getElem?_eq_some_iff.1 hold).1
  obtain ⟨z, hz, heq⟩ := Option.map_eq_some_iff.1 he
  cases heq
  have hs₀ : outline (s.1, { s.2 with nodes := s.2.nodes.set v new, waiting := s.2.waiting.set v false }) =
      (outline s).install v new := by
    simp only [outline, Outline.install, List.length_set]
  have hnew : (s.2.nodes.set v new)[v]? = some new := List.getElem?_set_self hlt
  refine ⟨?_, fun s₁ hs₁ => hs₁.trans hs₀⟩
  change OwnPre Γ D nNodes fresh (outline _) (.introduce new z)
  rw [hs₀]
  refine ⟨hpop, List.mem_of_getElem? hnew, List.mem_of_getElem? hz, ?_⟩
  rintro rfl
  have hlt' : v < (s.2.nodes.set v new).length := by
    rw [List.length_set]
    exact hlt
  exact hv ((List.getElem?_inj hlt' hpop.nodup).1 (hnew.trans hz.symm))

/-- A call of the experiment keeps its contract. -/
theorem own_keeps {d : ExperimentCall N} (h : (experimentProgram Γ D N).exec r (.own d) s = some (s', cs))
    (hpre : OwnPre Γ D nNodes fresh (outline s) d) :
    (contract Γ D nNodes fresh).Leads cs (fun s' => OwnPost Γ D nNodes fresh (outline s) (outline s') d) s' := by
  cases d with
  | main n => exact main_keeps h hpre
  | startup n z => exact startup_keeps h hpre
  | addNodes i n a => exact addNodes_keeps h hpre
  | experiment => exact experiment_keeps h hpre
  | init => exact init_keeps h hpre
  | storeAll i => exact storeAll_keeps h hpre
  | run i => exact run_keeps h hpre
  | replace => exact replace_keeps h hpre
  | install v new => exact install_keeps h hpre
  | ticks k =>
    obtain ⟨t, xs, ds, he, rfl, rfl⟩ := exec_own h
    cases k with
    | zero =>
      cases he
      rfl
    | succ k =>
      cases he
      refine ⟨hpre.live, fun s₁ hs₁ => ⟨?_, fun s₂ hs₂ => ?_⟩⟩
      · change (outline s₁).Populated fresh
        rw [show outline s₁ = (outline s).tick from hs₁]
        exact populated_ticks 1 hpre
      · exact Eq.trans hs₂ (congrArg (Outline.tick^[k]) hs₁)
  | introduce n1 n2 =>
    obtain ⟨t, xs, ds, he, rfl, rfl⟩ := exec_own h
    cases he
    obtain ⟨hpop, h1, h2, hne⟩ := hpre
    have hasks : Asks fresh (outline s) n1 (.ping ((outline s).address n2) .empty) :=
      .ping (fun hf he => hne (hpop.unique hf _ _ he (hpop.settled hf n2 h2)).symm)
    exact ⟨enterPre_app hpop h1 hasks, fun s₁ hs₁ => eq_of_asked hs₁ hasks⟩
  | search =>
    obtain ⟨t, xs, ds, he, rfl, rfl⟩ := exec_own h
    simp only [Experiment.exec, Experiment.search] at he
    split at he
    · next node key hnode hwaiting hkey =>
      cases he
      have hmem : node ∈ (outline s).nodes := List.mem_of_getElem? hnode
      have hpre' := enterPre_app hpre.populated hmem (.fetch key (.of s.2.fetches.length s.2.fetches.length))
      have hs₀ : outline (s.1, { s.2 with
          waiting := s.2.waiting.set r.2.nodeIndex true
          fetches := s.2.fetches ++ [⟨node, r.2.nodeIndex, r.2.targetDataIndex, s.1.network.epoch⟩] }) = outline s := by
        simp only [outline, List.length_set]
      rw [← hs₀] at hpre'
      exact ⟨hpre', fun s₁ hs₁ => (eq_of_asked hs₁ (.fetch key _ : Asks fresh _ _ _)).trans hs₀⟩
    · cases he
      rfl
    · cases he

/-- The program keeps its contracts. -/
theorem keeps (Γ : Ctx) (D : Durations) (N nNodes : Nat) (fresh : Prop) :
    Keeps (experimentProgram Γ D N) (fun m l => fresh → freshAddress m l = true) (contract Γ D nNodes fresh) (fun _ => True) where
  body r c rest s tr s' cs hok hpre he := by
    cases c with
    | own d => exact own_keeps he hpre
    | enter x => exact enter_keeps he hpre
    | inside x =>
      refine inside_keeps he hpre (fun hf i hi => ?_)
      subst hi
      simpa [freshAddress, Outline.Unused, outline] using hok hf
  event c s h := by cases h
  reentry c f s h := by cases h
  leave f s h := by cases h

variable {config : Config} {key : Fin N → KademliaKey} {offset : Fin N → Time} {limit : UInt32} {m : ExperimentConfig N}
  {ok : ExperimentConfig N → ExperimentLabel N → Prop}

/-- A call that is about to run finds what it relies on. -/
theorem pre_of_run (hok : ∀ m l, ok m l → fresh → freshAddress m l = true)
    (h : Run (experimentProgram Γ D N) ok (startExperiment config key offset limit nNodes) m)
    {c : ClientCall (NetworkCall N) (ExperimentCall N)} {rest : List (ClientCall (NetworkCall N) (ExperimentCall N))}
    (hc : m.stack = c :: rest) : (contract Γ D nNodes fresh).pre c m.state :=
  (h.mono hok).pre_of_stack (keeps Γ D N nNodes fresh) ⟨⟨rfl, rfl⟩, fun _ _ => trivial⟩ hc

end ExperimentAux

end Dhtsim
