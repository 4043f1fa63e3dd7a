import Dhtsim.Lemmas.Deliveries
import Dhtsim.Lemmas.Honesty

/-!
# The inhabitants of a network that nobody leaves

When each node is added once and none is removed, a node has an address from the moment it is added, and lives there. A node that
was not added yet has sent and received nothing.
-/

namespace Dhtsim

open CallMachine KademliaNode

/-- The address that whoever makes the call names. -/
def Call.names : Call → Option UInt32
  | .ping a _ => some a
  | .storeAt a _ => some a
  | .observe a _ => some a
  | _ => none

/-- The call kills no node and removes none. -/
def NetworkCall.endsNobody {N : Nat} : NetworkCall N → Bool
  | .app _ (.base .die) => false
  | .remove _ => false
  | _ => true

/-- The steps of a network in which no node dies or is removed, the tags that are drawn are not zero and differ, and whoever asks
something of a node asks an inhabitant, and names inhabitants. -/
def nobodyLeaves {N : Nat} (m : NetworkConfig N) (l : NetworkLabel N) : Bool :=
  freshNetworkTags m l &&
    match l, m.stack with
    | .enter (.app i c), _ =>
      c ≠ .base .die && decide (m.state.inhabitants.find? (m.state.applications i).address = some i) &&
        c.names.all m.state.inhabitants.contains
    | .enter (.remove _), _ => false
    | .run _, x :: _ => x.endsNobody
    | _, _ => true

/-- The steps of a network in which no node dies or is removed, no limit of a queue or of a link is hit, the tags that are drawn
are not zero and differ, and whoever asks something of a node asks an inhabitant, and names inhabitants. -/
def amongInhabitants {N : Nat} (m : NetworkConfig N) (l : NetworkLabel N) : Bool :=
  freshNetworkTags m l &&
    match l, m.stack with
    | .enter (.app i c), _ =>
      c ≠ .base .die && decide (m.state.inhabitants.find? (m.state.applications i).address = some i) &&
        c.names.all m.state.inhabitants.contains
    | .enter (.remove _), _ => false
    | .run _, x :: _ => x.unhindered m.state
    | _, _ => true

/-- No node is added that is an inhabitant. -/
def addsNew {N : Nat} (m : NetworkConfig N) : NetworkLabel N → Bool
  | .enter (.add i) => m.state.inhabitants.entries.all (fun e => e.2 ≠ i)
  | _ => true

/-- Somebody lives at the address. -/
def CentralizedNetwork.livesAt {N : Nat} (w : CentralizedNetwork N) (a : UInt32) : Prop := ∃ j, w.inhabitants.find? a = some j

/-- What is known of the inhabitants in a configuration. -/
structure ResidentState {N : Nat} (m : NetworkConfig N) : Prop where
  addresses : AddressState m
  resides : ∀ i, addressOf m i ≠ 0 → m.state.inhabitants.find? (addressOf m i) = some i
  idle : ∀ i, addressOf m i = 0 → (m.state.applications i).callbacks.entries = [] ∧ (m.state.applications i).inqueue = []

variable {N : Nat} {Γ : Ctx} {config : Fin N → Config} {key : Fin N → KademliaKey} {offset : Fin N → Time} {limit : UInt32}
  {ok : NetworkConfig N → NetworkLabel N → Prop} {m m' : NetworkConfig N} {i j : Fin N} {l : NetworkLabel N} {a : UInt32}

/-! ## What the condition says of a step -/

theorem freshNetworkTags_of_nobodyLeaves (h : nobodyLeaves m l = true) : freshNetworkTags m l = true := by
  unfold nobodyLeaves at h
  exact (Bool.and_eq_true_iff.1 h).1

theorem NetworkCall.endsNobody_of_unhindered {x : NetworkCall N} {w : CentralizedNetwork N} (h : x.unhindered w = true) :
    x.endsNobody = true := by
  cases x with
  | remove i => cases h
  | app i c =>
    cases c with
    | base b =>
      cases b with
      | die => cases h
      | _ => rfl
    | _ => rfl
  | _ => rfl

/-- Among inhabitants nobody leaves. -/
theorem nobodyLeaves_of_amongInhabitants (h : amongInhabitants m l = true) : nobodyLeaves m l = true := by
  unfold amongInhabitants at h
  unfold nobodyLeaves
  refine Bool.and_eq_true_iff.2 ((Bool.and_eq_true_iff.1 h).imp_right fun h => ?_)
  split at h
  · exact h
  · cases h
  · exact NetworkCall.endsNobody_of_unhindered h
  · rfl

theorem freshNetworkTags_of_amongInhabitants (h : amongInhabitants m l = true) : freshNetworkTags m l = true := by
  unfold amongInhabitants at h
  exact (Bool.and_eq_true_iff.1 h).1

theorem unhindered_of_amongInhabitants {ch : NetworkChoice} {x : NetworkCall N} {rest : List (NetworkCall N)}
    {w : CentralizedNetwork N} {tr : NetworkTrace N} (h : amongInhabitants ⟨w, x :: rest, tr⟩ (.run ch) = true) :
    x.unhindered w = true := by
  simp only [amongInhabitants, Bool.and_eq_true] at h
  exact h.2

theorem endsNobody_of_nobodyLeaves {ch : NetworkChoice} {x : NetworkCall N} {rest : List (NetworkCall N)}
    {w : CentralizedNetwork N} {tr : NetworkTrace N} (h : nobodyLeaves ⟨w, x :: rest, tr⟩ (.run ch) = true) :
    x.endsNobody = true := by
  simp only [nobodyLeaves, Bool.and_eq_true] at h
  exact h.2

theorem enter_of_nobodyLeaves {c : Call} (h : nobodyLeaves m (.enter (.app i c)) = true) :
    c ≠ .base .die ∧ m.state.inhabitants.find? (addressOf m i) = some i ∧ ∀ a, c.names = some a → m.state.livesAt a := by
  simp only [nobodyLeaves, Bool.and_eq_true, decide_eq_true_eq] at h
  obtain ⟨-, ⟨hdie, hi⟩, hnames⟩ := h
  refine ⟨hdie, hi, fun a ha => ?_⟩
  rw [ha, Option.all_some] at hnames
  exact Option.isSome_iff_exists.1 hnames

namespace ResidentsAux

/-- An inhabitant lives at its address. -/
theorem address_of_find? (hI : ResidentState m) (h : m.state.inhabitants.find? a = some i) : addressOf m i = a :=
  (hI.addresses.inhabits a i h).1

/-- What may come in keeps the addresses in order. -/
theorem addedOnce_of_resides (hI : ResidentState m) (hok : nobodyLeaves m l = true) (hnew : addsNew m l = true) :
    addedOnce m l = true := by
  unfold addedOnce
  split
  · rename_i k
    refine decide_eq_true ?_
    by_contra hne
    have hmem := SortedMap.find?_eq_some_iff.1 (hI.resides k hne)
    simp only [addsNew, List.all_eq_true, decide_eq_true_eq] at hnew
    exact hnew _ hmem rfl
  · rename_i k c
    obtain ⟨hdie, hk, -⟩ := enter_of_nobodyLeaves hok
    have hne : addressOf m k ≠ 0 := (hI.addresses.inhabits _ _ hk).2
    simp only [Bool.or_eq_true, decide_eq_true_eq]
    exact Or.inr hne
  · rename_i ch k rest hstack
    by_cases hzero : m.state.getNewAddress ch.attempts = 0
    · rw [hzero]
      rfl
    · have hfree := CentralizedNetwork.find?_getNewAddress hzero
      simp only [Bool.or_eq_true, decide_eq_true_eq, List.all_eq_true]
      refine Or.inr (fun j _ heq => ?_)
      have hj := hI.resides j (fun h => hzero (heq.symm.trans h))
      rw [show addressOf m j = _ from heq, hfree] at hj
      cases hj
  · rfl

/-- Whoever lives somewhere stays there. -/
theorem find?_step (hI : AddressState m) (hok : nobodyLeaves m l = true) (hs : Step (networkProgram Γ N) m l m')
    (h : m.state.inhabitants.find? a = some i) : m'.state.inhabitants.find? a = some i := by
  cases hs with
  | @run ch x rest w tr w' cs hw he =>
    have hch : NetworkChanges Γ ch w x w' := CentralizedNetwork.exec_changes he
    cases hch with
    | @settle j b =>
      have hfree := (hI.settling j b List.mem_cons_self).2.2.2
      have hne : a ≠ b := by
        rintro rfl
        exact hfree i (hI.inhabits a i h).1
      exact (SortedMap.find?_insert_of_ne _ _ hne).trans h
    | remove => cases endsNobody_of_nobodyLeaves hok
    | _ => exact h
  | _ => exact h

/-- A node without an address is left alone. -/
theorem idle_step (hr : Run (networkProgram Γ N) ok (startNetwork config key offset limit) m) (hI : ResidentState m)
    (hs : Step (networkProgram Γ N) m l m') (hok : nobodyLeaves m l = true) (h : addressOf m' i = 0) :
    (m'.state.applications i).callbacks.entries = [] ∧ (m'.state.applications i).inqueue = [] := by
  have hbefore : addressOf m i = 0 := by
    by_contra hne
    exact hne ((AddressesAux.address_stays hr hI.addresses hs hne).symm.trans h)
  cases hs with
  | @run ch x rest w tr w' cs hw he =>
    rcases CentralizedNetwork.applications_cases he i with hsame | ⟨c, q, rfl, -, -⟩ | ⟨total, rfl, -⟩ | ⟨a, rfl, hsame⟩
    · have hsame : w'.applications i = w.applications i := hsame
      rw [hsame]
      exact hI.idle i hbefore
    · have hne : c ≠ .base .die := by
        rintro rfl
        cases endsNobody_of_nobodyLeaves hok
      exact absurd hbefore (hI.addresses.subject _ List.mem_cons_self i (if_neg hne))
    · exact absurd hbefore (hI.addresses.subject _ List.mem_cons_self i rfl)
    · have hsame : w'.applications i = _ := hsame
      rw [hsame]
      exact hI.idle i hbefore
  | _ => exact hI.idle i hbefore

theorem residentState_step (hr : Run (networkProgram Γ N) ok (startNetwork config key offset limit) m) (hI : ResidentState m)
    (hok : nobodyLeaves m l = true) (hnew : addsNew m l = true) (hs : Step (networkProgram Γ N) m l m') :
    ResidentState m' := by
  refine ⟨AddressesAux.addressState_step hr hI.addresses (addedOnce_of_resides hI hok hnew) hs, fun i hne => ?_,
    fun i h => idle_step hr hI hs hok h⟩
  rcases AddressesAux.address_step hr hs i with hsame | ⟨a, rest, -, ha, hinh⟩
  · rw [hsame] at hne ⊢
    exact find?_step hI.addresses hok hs (hI.resides i hne)
  · rw [hinh, ha]
    exact SortedMap.find?_insert_self ..

end ResidentsAux

open ResidentsAux

theorem residentState_of_run (hok : ∀ m l, ok m l → nobodyLeaves m l = true ∧ addsNew m l = true)
    (h : Run (networkProgram Γ N) ok (startNetwork config key offset limit) m) : ResidentState m := by
  refine h.invariant (I := ResidentState) ⟨⟨?_, ?_, by simp [startNetwork], by simp [startNetwork], by simp [startNetwork],
    by simp [startNetwork]⟩, ?_, fun i _ => ⟨rfl, rfl⟩⟩ ?_
  · exact fun i j _ hne => absurd rfl hne
  · intro a i hf
    cases hf
  · exact fun i hne => absurd rfl hne
  · exact fun m l m' hr hI hl hs => residentState_step hr hI (hok m l hl).1 (hok m l hl).2 hs

end Dhtsim
