import Dhtsim.Lemmas.Messages
import Dhtsim.Lemmas.Projection

/-!
# The addresses of a network

A node has no address (0) before it is added. When each node is added once, with an address that was never in use, the addresses
of the nodes differ and stay, and what is sent to an address comes to the node that has it.
-/

namespace Dhtsim

open CallMachine KademliaNode

/-- Whoever asks something of node `i` does not name the node itself, and observes only a node by its address and key. -/
def Call.namesOthers {N : Nat} (w : CentralizedNetwork N) (i : Fin N) : Call → Bool
  | .ping a _ => a ≠ (w.applications i).address
  | .storeAt a _ => a ≠ (w.applications i).address
  | .observe a k =>
    a ≠ 0 && (List.finRange N).any (fun j => (w.applications j).address = a && (w.applications j).key = k)
  | _ => true

/-- Each node is added once, with an address that no node ever had, and used only then, to contact others. -/
def properUse {N : Nat} (m : NetworkConfig N) (l : NetworkLabel N) : Bool :=
  match l, m.stack with
  | .enter (.add i), _ => (m.state.applications i).address = 0
  | .enter (.app i c), _ => c = .base .die || ((m.state.applications i).address ≠ 0 && c.namesOthers m.state i)
  | .run ch, .add _ :: _ =>
    m.state.getNewAddress ch.attempts = 0 ||
      (List.finRange N).all (fun j => (m.state.applications j).address ≠ m.state.getNewAddress ch.attempts)
  | _, _ => true

/-- Each node is added once, with an address that no node ever had, and used only then. -/
def addedOnce {N : Nat} (m : NetworkConfig N) (l : NetworkLabel N) : Bool :=
  match l, m.stack with
  | .enter (.add i), _ => (m.state.applications i).address = 0
  | .enter (.app i c), _ => c = .base .die || (m.state.applications i).address ≠ 0
  | .run ch, .add _ :: _ =>
    m.state.getNewAddress ch.attempts = 0 ||
      (List.finRange N).all (fun j => (m.state.applications j).address ≠ m.state.getNewAddress ch.attempts)
  | _, _ => true

theorem addedOnce_of_properUse {N : Nat} {m : NetworkConfig N} {l : NetworkLabel N} (h : properUse m l = true) :
    addedOnce m l = true := by
  unfold properUse at h
  unfold addedOnce
  split at h
  · exact h
  · simp only [Bool.or_eq_true, Bool.and_eq_true] at h ⊢
    exact h.imp_right And.left
  · exact h
  · rfl

/-- The node that a call is about, which has an address. -/
def NetworkCall.subject {N : Nat} : NetworkCall N → Option (Fin N)
  | .app i c => if c = .base .die then none else some i
  | .call i _ => some i
  | .outbound i _ => some i
  | _ => none

/-- The address of a node. -/
abbrev addressOf {N : Nat} (m : NetworkConfig N) (i : Fin N) : UInt32 := (m.state.applications i).address

/-- What is known of the addresses in a configuration. -/
structure AddressState {N : Nat} (m : NetworkConfig N) : Prop where
  unique : ∀ i j, addressOf m i = addressOf m j → addressOf m i ≠ 0 → i = j
  inhabits : ∀ a i, m.state.inhabitants.find? a = some i → addressOf m i = a ∧ a ≠ 0
  adding : ∀ i, .add i ∈ m.stack → m.stack = [.add i] ∧ addressOf m i = 0
  settling : ∀ i a, .settle i a ∈ m.stack →
    m.stack = [.settle i a] ∧ addressOf m i = 0 ∧ a ≠ 0 ∧ ∀ j, addressOf m j ≠ a
  subject : ∀ x ∈ m.stack, ∀ i, x.subject = some i → addressOf m i ≠ 0
  delivers : ∀ i msg, .call i (.base (.recv msg)) ∈ m.stack → addressOf m i = msg.destination

/-- Only `setAddress` changes the address of an application. -/
theorem BaseApplication.exec_address {A F : Type} {drawn : Tag} {c : BaseCall A F} {app : BaseApplication A F}
    (hc : ∀ a, c ≠ .setAddress a) : (exec drawn c app).1.address = app.address := by
  cases c with
  | tick time => simp only [exec]; split <;> rfl
  | drain => simp only [exec]; split <;> rfl
  | overdue after => simp only [exec]; (repeat' split) <;> rfl
  | attemptRetry tag => simp only [exec]; rw [attemptRetry_eq]
  | send m cb r t => simp only [exec]; rw [send_eq]
  | receive m => simp only [exec]; split <;> rfl
  | recv m => simp only [exec]; rw [queueIn_eq]
  | setAddress a => exact absurd rfl (hc a)
  | _ => rfl

theorem KademliaNode.exec_address {Γ : Ctx} {ch : Choice} {c : Call} {n : KademliaNode} {p : KademliaNode × List Call}
    (h : exec Γ ch c n = some p) (hc : ∀ a, c ≠ .base (.setAddress a)) : p.1.address = n.address := by
  by_cases hb : ∃ b, c = .base b
  · obtain ⟨b, rfl⟩ := hb
    rw [exec_base h]
    exact BaseApplication.exec_address (fun a ha => hc a (congrArg _ ha))
  · exact congrArg BaseApplication.address (exec_base_of_ne h (fun b hc => hb ⟨b, hc⟩))

namespace AddressesAux

variable {N : Nat} {Γ : Ctx} {config : Fin N → Config} {key : Fin N → KademliaKey} {offset : Fin N → Time} {limit : UInt32}
  {ok : NetworkConfig N → NetworkLabel N → Prop} {m m' : NetworkConfig N} {i : Fin N} {l : NetworkLabel N}

/-- No node gives itself an address. -/
theorem ne_setAddress (h : Run (networkProgram Γ N) ok (startNetwork config key offset limit) m) {c : Call}
    (hc : .app i c ∈ m.stack) : ∀ a, c ≠ .base (.setAddress a) := by
  refine inside_of_run (C := fun _ _ c => ∀ a, c ≠ .base (.setAddress a)) h (fun _ _ _ _ _ h => h) ?_ ?_ i c hc
  · rintro _ _ c hc a rfl
    cases hc
  · rintro _ _ c z _ _ _ _ hz a rfl
    cases hz

/-- A step leaves the address of a node, or gives it the one it settles with. -/
theorem address_step (hr : Run (networkProgram Γ N) ok (startNetwork config key offset limit) m)
    (hs : Step (networkProgram Γ N) m l m') (i : Fin N) :
    addressOf m' i = addressOf m i ∨ ∃ a rest, m.stack = .settle i a :: rest ∧ addressOf m' i = a ∧
      m'.state.inhabitants = m.state.inhabitants.insert a i := by
  cases hs with
  | run hw he =>
    rcases CentralizedNetwork.applications_cases he i with h | ⟨c, q, rfl, h, hi⟩ | ⟨_, -, hi⟩ | ⟨a, rfl, hi⟩
    · exact Or.inl (congrArg (fun n => n.address) h)
    · refine Or.inl ((congrArg (fun n => n.address) hi).trans ?_)
      exact KademliaNode.exec_address h (ne_setAddress hr List.mem_cons_self)
    · exact Or.inl ((congrArg (fun n => n.address) hi).trans rfl)
    · cases he
      exact Or.inr ⟨a, _, rfl, congrArg (fun n => n.address) hi, rfl⟩
  | _ => exact Or.inl rfl

/-- A node that settles has its address then. -/
theorem addressOf_settle {w : CentralizedNetwork N} {a : UInt32} {stack : List (NetworkCall N)} {tr : NetworkTrace N} :
    addressOf ⟨w.settle i a, stack, tr⟩ i = a := by
  change ((w.setApplication i _).applications i).address = a
  rw [CentralizedNetwork.applications_setApplication_self]
  rfl

/-- An inhabitant after a step was one before, or just settled. -/
theorem inhabitants_step (hs : Step (networkProgram Γ N) m l m') {a : UInt32}
    (h : m'.state.inhabitants.find? a = some i) :
    m.state.inhabitants.find? a = some i ∨ ∃ rest, m.stack = .settle i a :: rest ∧ addressOf m' i = a := by
  cases hs with
  | @run ch x rest w tr w' cs hw he =>
    have hch : NetworkChanges Γ ch w x w' := CentralizedNetwork.exec_changes he
    cases hch with
    | @settle j b =>
      simp only [CentralizedNetwork.settle] at h
      rw [SortedMap.find?_insert] at h
      split at h
      · rename_i ha
        cases h
        subst ha
        exact Or.inr ⟨rest, rfl, addressOf_settle⟩
      · exact Or.inl h
    | @remove j =>
      simp only at h
      rw [SortedMap.find?_erase] at h
      split at h
      · cases h
      · exact Or.inl h
    | _ => exact Or.inl h
  | _ => exact Or.inl h

/-- An address that a node has stays. -/
theorem address_stays (hr : Run (networkProgram Γ N) ok (startNetwork config key offset limit) m) (hI : AddressState m)
    (hs : Step (networkProgram Γ N) m l m') (h : addressOf m i ≠ 0) : addressOf m' i = addressOf m i := by
  rcases address_step hr hs i with heq | ⟨a, rest, hstack, -⟩
  · exact heq
  · exact absurd (hI.settling i a (hstack ▸ List.mem_cons_self)).2.1 h

theorem unique_step (hr : Run (networkProgram Γ N) ok (startNetwork config key offset limit) m) (hI : AddressState m)
    (hs : Step (networkProgram Γ N) m l m') (j : Fin N) (heq : addressOf m' i = addressOf m' j) (hne : addressOf m' i ≠ 0) :
    i = j := by
  rcases address_step hr hs i with hi | ⟨a, rest, hstack, hi, -⟩
  · rcases address_step hr hs j with hj | ⟨b, rest', hstack', hj, -⟩
    · exact hI.unique i j (hi.symm.trans (heq.trans hj)) (hi ▸ hne)
    · have hfree := (hI.settling j b (hstack' ▸ List.mem_cons_self)).2.2.2 i
      exact absurd (hi.symm.trans (heq.trans hj)) hfree
  · rcases address_step hr hs j with hj | ⟨b, rest', hstack', hj, -⟩
    · have hfree := (hI.settling i a (hstack ▸ List.mem_cons_self)).2.2.2 j
      exact absurd (hj.symm.trans (heq.symm.trans hi)) hfree
    · cases hstack.symm.trans hstack'
      rfl

/-- What waits under the top of a stack is not about to be added or to settle. -/
theorem rest_adds {x : NetworkCall N} {rest : List (NetworkCall N)} {w : CentralizedNetwork N} {tr : NetworkTrace N}
    (hI : AddressState ⟨w, x :: rest, tr⟩) : (∀ i, .add i ∉ rest) ∧ ∀ i a, .settle i a ∉ rest := by
  constructor
  · intro i hmem
    obtain ⟨-, rfl⟩ := List.cons.inj (hI.adding i (List.mem_cons_of_mem _ hmem)).1
    cases hmem
  · intro i a hmem
    obtain ⟨-, rfl⟩ := List.cons.inj (hI.settling i a (List.mem_cons_of_mem _ hmem)).1
    cases hmem

/-- A call that runs makes calls about nodes that have an address. -/
theorem subject_of_makes {x y : NetworkCall N} {rest cs : List (NetworkCall N)} {w w' : CentralizedNetwork N}
    {tr : NetworkTrace N} {ch : NetworkChoice} (hI : AddressState ⟨w, x :: rest, tr⟩)
    (hstays : ∀ i, (w.applications i).address ≠ 0 → (w'.applications i).address = (w.applications i).address)
    (he : CentralizedNetwork.exec Γ ch x w = some (w', cs)) (hy : y ∈ cs) (hi : y.subject = some i) :
    (w'.applications i).address ≠ 0 := by
  have hkeep : (w.applications i).address ≠ 0 → (w'.applications i).address ≠ 0 := fun h => hstays i h ▸ h
  have hx : x.subject = some i → (w'.applications i).address ≠ 0 :=
    fun h => hkeep (hI.subject x List.mem_cons_self i h)
  have hinhabits : ∀ {a}, w.inhabitants.find? a = some i → (w'.applications i).address ≠ 0 := by
    intro a h
    obtain ⟨ha, hne⟩ := hI.inhabits a i h
    exact hkeep (fun h => hne (ha.symm.trans h))
  cases CentralizedNetwork.exec_makes he y hy with
  | @inside j c z hz =>
    have hc : c ≠ .base .die := by
      rintro rfl
      cases hz
    simp only [NetworkCall.subject, Option.ite_none_left_eq_some, Option.some.injEq] at hi
    exact hx (by rw [NetworkCall.subject, if_neg hc, hi.2])
  | @handOn j c =>
    simp only [NetworkCall.subject, Option.ite_none_left_eq_some, Option.some.injEq] at hi
    exact hx (congrArg some hi.2)
  | tick hn => cases hi; exact hinhabits (SortedMap.find?_eq_some_iff.2 (SortedMap.mem_of_next hn))
  | outbound hn => cases hi; exact hinhabits (SortedMap.find?_eq_some_iff.2 (SortedMap.mem_of_next hn))
  | sendAgain hq hlimit => exact hx hi
  | nextOutbound hq => exact hx hi
  | recv hf => cases hi; exact hinhabits hf
  | @catchUp j a =>
    cases hi
    cases he
    have ha := (hI.settling i a List.mem_cons_self).2.2.1
    have hsettled : addressOf (⟨w.settle i a, [], tr⟩ : NetworkConfig N) i = a := addressOf_settle
    exact fun h => ha (hsettled.symm.trans h)
  | _ => cases hi

/-- What comes in is about a node that has an address. -/
theorem subject_of_enter {x : NetworkCall N} (hl : addedOnce m (.enter x) = true)
    (hx : (networkProgram Γ N).event x = true ∨ (networkProgram Γ N).reentry x = true) (hi : x.subject = some i) :
    addressOf m i ≠ 0 := by
  cases x with
  | app j c =>
    simp only [NetworkCall.subject, Option.ite_none_left_eq_some, Option.some.injEq] at hi
    obtain ⟨hc, rfl⟩ := hi
    simp only [addedOnce, Bool.or_eq_true, decide_eq_true_eq] at hl
    exact hl.resolve_left hc
  | call j c => exact absurd rfl ((NetworkCall.enters_cases hx).1 j c)
  | outbound j total => rcases hx with hx | hx <;> cases hx
  | _ => cases hi

/-- One step keeps what is known of the addresses. -/
theorem addressState_step (hr : Run (networkProgram Γ N) ok (startNetwork config key offset limit) m) (hI : AddressState m)
    (hl : addedOnce m l = true) (hs : Step (networkProgram Γ N) m l m') : AddressState m' := by
  have hstays : ∀ i, addressOf m i ≠ 0 → addressOf m' i = addressOf m i := fun i h => address_stays hr hI hs h
  have hinhabits : ∀ a i, m'.state.inhabitants.find? a = some i → addressOf m' i = a ∧ a ≠ 0 := by
    intro a i hf
    rcases inhabitants_step hs hf with hf | ⟨rest, hstack, ha⟩
    · obtain ⟨ha, hne⟩ := hI.inhabits a i hf
      exact ⟨(hstays i (fun h => hne (ha.symm.trans h))).trans ha, hne⟩
    · exact ⟨ha, (hI.settling i a (hstack ▸ List.mem_cons_self)).2.2.1⟩
  have hunique : ∀ i j, addressOf m' i = addressOf m' j → addressOf m' i ≠ 0 → i = j :=
    fun i j heq hne => unique_step hr hI hs j heq hne
  cases hs with
  | @run ch x rest w tr w' cs hw he =>
    obtain ⟨hadd, hsettle⟩ := rest_adds hI
    have hmakes := CentralizedNetwork.exec_makes he
    refine ⟨hunique, hinhabits, fun i hmem => ?_, fun i a hmem => ?_, fun y hy i hi => ?_, fun i msg hmem => ?_⟩
    · rcases List.mem_append.1 hmem with hmem | hmem
      · cases hmakes _ hmem
      · exact absurd hmem (hadd i)
    · rcases List.mem_append.1 hmem with hmem | hmem
      · cases hmakes _ hmem with
        | settle hne hfree =>
          obtain ⟨hstack, haddr⟩ := hI.adding i List.mem_cons_self
          obtain ⟨-, rfl⟩ := List.cons.inj hstack
          cases he
          simp only [CentralizedNetwork.add] at hmem ⊢
          split at hmem
          · cases hmem
          · rename_i hzero
            cases List.mem_singleton.1 hmem
            rw [if_neg hzero]
            refine ⟨rfl, haddr, hzero, ?_⟩
            simp only [addedOnce, Bool.or_eq_true, decide_eq_true_eq, List.all_eq_true] at hl
            rcases hl with hl | hl
            · exact absurd hl hzero
            · exact fun j => hl j (List.mem_finRange j)
      · exact absurd hmem (hsettle i a)
    · rcases List.mem_append.1 hy with hy | hy
      · exact subject_of_makes hI hstays he hy hi
      · have hne := hI.subject y (List.mem_cons_of_mem _ hy) i hi
        exact fun h => hne ((hstays i hne).symm.trans h)
    · rcases List.mem_append.1 hmem with hmem | hmem
      · cases hmakes _ hmem with
        | recv hf =>
          obtain ⟨ha, hne⟩ := hI.inhabits _ i hf
          exact (hstays i (fun h => hne (ha.symm.trans h))).trans ha
      · have hne := hI.subject _ (List.mem_cons_of_mem _ hmem) i rfl
        exact (hstays i hne).trans (hI.delivers i msg (List.mem_cons_of_mem _ hmem))
  | @event x w tr hx =>
    refine ⟨hunique, hinhabits, fun i hmem => ?_, fun i a hmem => ?_, fun y hy i hi => ?_, fun i msg hmem => ?_⟩
    · obtain rfl := List.mem_singleton.1 hmem
      exact ⟨rfl, of_decide_eq_true hl⟩
    · obtain rfl := List.mem_singleton.1 hmem
      cases hx
    · obtain rfl := List.mem_singleton.1 hy
      exact subject_of_enter (m := ⟨w, [], tr⟩) hl (Or.inl hx) hi
    · obtain rfl := List.mem_singleton.1 hmem
      cases hx
  | @reentry x f rest w tr hf hx =>
    obtain ⟨hadd, hsettle⟩ := rest_adds hI
    refine ⟨hunique, hinhabits, fun i hmem => ?_, fun i a hmem => ?_, fun y hy i hi => ?_, fun i msg hmem => ?_⟩
    · rcases List.mem_cons.1 hmem with rfl | hmem
      · cases hx
      · rcases List.mem_cons.1 hmem with rfl | hmem
        · cases hf
        · exact absurd hmem (hadd i)
    · rcases List.mem_cons.1 hmem with rfl | hmem
      · cases hx
      · rcases List.mem_cons.1 hmem with rfl | hmem
        · cases hf
        · exact absurd hmem (hsettle i a)
    · rcases List.mem_cons.1 hy with rfl | hy
      · exact subject_of_enter (m := ⟨w, f :: rest, tr⟩) hl (Or.inr hx) hi
      · exact hI.subject y hy i hi
    · rcases List.mem_cons.1 hmem with rfl | hmem
      · cases hx
      · exact hI.delivers i msg hmem
  | @leave f rest w tr hf =>
    obtain ⟨hadd, hsettle⟩ := rest_adds hI
    refine ⟨hunique, hinhabits, fun i hmem => absurd hmem (hadd i), fun i a hmem => absurd hmem (hsettle i a),
      fun y hy i hi => hI.subject y (List.mem_cons_of_mem _ hy) i hi, fun i msg hmem => ?_⟩
    exact hI.delivers i msg (List.mem_cons_of_mem _ hmem)

end AddressesAux

open AddressesAux

variable {N : Nat} {Γ : Ctx} {config : Fin N → Config} {key : Fin N → KademliaKey} {offset : Fin N → Time} {limit : UInt32}
  {ok : NetworkConfig N → NetworkLabel N → Prop} {m m' : NetworkConfig N} {i : Fin N}

theorem addressState_of_run (hok : ∀ m l, ok m l → addedOnce m l = true)
    (h : Run (networkProgram Γ N) ok (startNetwork config key offset limit) m) : AddressState m := by
  refine h.invariant (I := AddressState) ⟨?_, ?_, by simp [startNetwork], by simp [startNetwork], by simp [startNetwork],
    by simp [startNetwork]⟩ ?_
  · intro i j _ hne
    exact absurd rfl hne
  · intro a i hf
    simp [startNetwork, CentralizedNetwork.init] at hf
  · exact fun m l m' hr hI hl hs => addressState_step hr hI (hok m l hl) hs

/-- An address that a node has stays with it. -/
theorem address_of_run (hok : ∀ m l, ok m l → addedOnce m l = true)
    (h : Run (networkProgram Γ N) ok (startNetwork config key offset limit) m) (hr : Run (networkProgram Γ N) ok m m')
    (hne : addressOf m i ≠ 0) : addressOf m' i = addressOf m i := by
  refine hr.invariant (I := fun m' => addressOf m' i = addressOf m i) rfl ?_
  intro m₁ l m₂ hr₁ heq _ hs
  have hI := addressState_of_run hok (h.trans hr₁)
  exact (address_stays (h.trans hr₁) hI hs (heq ▸ hne)).trans heq

end Dhtsim
