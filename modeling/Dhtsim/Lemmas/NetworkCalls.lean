import Dhtsim.Model.Network
import Dhtsim.Lemmas.CallGraph

/-!
# What a call of a network does

As for a node: the calls that a call makes, one constructor for each place of the source where a call is made
(`NetworkMakes`), and what a call may change of the network (`NetworkChanges`).
-/

namespace Dhtsim

variable {N : Nat} {Γ : Ctx} {ch : NetworkChoice} {w : CentralizedNetwork N} {x : NetworkCall N}
  {p : CentralizedNetwork N × List (NetworkCall N)}

/-- The calls that the body of a call makes, one constructor for each place where one is made. -/
inductive NetworkMakes (Γ : Ctx) (ch : NetworkChoice) (w : CentralizedNetwork N) : NetworkCall N → NetworkCall N → Prop where
  | inside {i : Fin N} {c y : Call} (h : KademliaNode.Makes Γ ch.toChoice (w.applications i) c y) :
      NetworkMakes Γ ch w (.app i c) (.app i y)
  | handOn {i : Fin N} {c : Call} : NetworkMakes Γ ch w (.call i c) (.app i c)
  | inhabitants : NetworkMakes Γ ch w .tick (.inhabitant none)
  | endTick : NetworkMakes Γ ch w .tick .endTick
  | tick {after : Option UInt32} {address : UInt32} {i : Fin N} (hn : w.inhabitants.next after = some (address, i)) :
      NetworkMakes Γ ch w (.inhabitant after) (.call i (.tick w.epoch))
  | outbound {after : Option UInt32} {address : UInt32} {i : Fin N} (hn : w.inhabitants.next after = some (address, i)) :
      NetworkMakes Γ ch w (.inhabitant after) (.outbound i 0)
  | nextInhabitant {after : Option UInt32} {address : UInt32} {i : Fin N}
      (hn : w.inhabitants.next after = some (address, i)) :
      NetworkMakes Γ ch w (.inhabitant after) (.inhabitant (some address))
  | sendAgain {i : Fin N} {total : Nat} {m : Message UInt32} {rest : List (Message UInt32)}
      (hq : (w.applications i).outqueue = m :: rest) (hlimit : w.linkLimit.toNat < total + m.data.length) :
      NetworkMakes Γ ch w (.outbound i total) (.call i (.base (.send m .empty 16 0)))
  | passAlong {i : Fin N} {total : Nat} {m : Message UInt32} {rest : List (Message UInt32)}
      (hq : (w.applications i).outqueue = m :: rest) : NetworkMakes Γ ch w (.outbound i total) (.passAlongMessage m)
  | nextOutbound {i : Fin N} {total : Nat} {m : Message UInt32} {rest : List (Message UInt32)}
      (hq : (w.applications i).outqueue = m :: rest) :
      NetworkMakes Γ ch w (.outbound i total) (.outbound i (total + m.data.length))
  | recv {m : Message UInt32} {i : Fin N} (hf : w.inhabitants.find? m.destination = some i) :
      NetworkMakes Γ ch w (.passAlongMessage m) (.call i (.base (.recv m)))
  | settle {i : Fin N} {address : UInt32} (hne : address ≠ 0) (hfree : w.inhabitants.find? address = none) :
      NetworkMakes Γ ch w (.add i) (.settle i address)
  | catchUp {i : Fin N} {address : UInt32} : NetworkMakes Γ ch w (.settle i address) (.call i (.tick w.epoch))

/-- What a call may change of a network. -/
inductive NetworkChanges (Γ : Ctx) (ch : NetworkChoice) (w : CentralizedNetwork N) :
    NetworkCall N → CentralizedNetwork N → Prop where
  | inside {i : Fin N} {c : Call} {q : KademliaNode × List Call}
      (h : KademliaNode.exec Γ ch.toChoice c (w.applications i) = some q) :
      NetworkChanges Γ ch w (.app i c) (w.setApplication i q.1)
  | unqueueOut {i : Fin N} {total : Nat} :
      NetworkChanges Γ ch w (.outbound i total) (w.setApplication i (w.applications i).unqueueOut)
  | endTick : NetworkChanges Γ ch w .endTick { w with epoch := w.epoch + 1 }
  | settle {i : Fin N} {address : UInt32} : NetworkChanges Γ ch w (.settle i address) (w.settle i address)
  | remove {i : Fin N} :
      NetworkChanges Γ ch w (.remove i) { w with inhabitants := w.inhabitants.erase (w.applications i).address }
  | nothing {x : NetworkCall N} : NetworkChanges Γ ch w x w

namespace CentralizedNetwork

@[simp] theorem applications_setApplication_self (w : CentralizedNetwork N) (i : Fin N) (app : KademliaNode) :
    (w.setApplication i app).applications i = app := Function.update_self ..

theorem applications_setApplication_of_ne (w : CentralizedNetwork N) {i j : Fin N} (h : i ≠ j) (app : KademliaNode) :
    (w.setApplication j app).applications i = w.applications i := Function.update_of_ne h ..

/-- A call inside a node is a call of the node. -/
theorem exec_app {i : Fin N} {c : Call} (h : exec Γ ch (.app i c) w = some p) :
    ∃ q, KademliaNode.exec Γ ch.toChoice c (w.applications i) = some q ∧
      p = (w.setApplication i q.1, q.2.map (.app i)) := by
  obtain ⟨q, hq, rfl⟩ := Option.map_eq_some_iff.1 h
  exact ⟨q, hq, rfl⟩

/-- A new address is free. -/
theorem find?_getNewAddress {attempts : List UInt32} (h : w.getNewAddress attempts ≠ 0) :
    w.inhabitants.find? (w.getNewAddress attempts) = none := by
  unfold getNewAddress at h ⊢
  cases hf : (attempts.take 1000).find? (fun attempt => !w.inhabitants.contains attempt) with
  | none => rw [hf] at h; exact absurd rfl h
  | some address =>
    have hfree := List.find?_some hf
    simpa [SortedMap.contains] using hfree

theorem outbound_makes (i : Fin N) (total : Nat) : ∀ y ∈ (w.outbound i total).2, NetworkMakes Γ ch w (.outbound i total) y := by
  intro y hy
  simp only [outbound] at hy
  split at hy
  · cases hy
  · rename_i m rest hq
    split_ifs at hy with hsize hlimit
    · cases hy
    · exact List.mem_singleton.1 hy ▸ .sendAgain hq hlimit
    · rcases List.mem_pair.1 hy with rfl | rfl
      · exact .passAlong hq
      · exact .nextOutbound hq

/-- Every call that a body makes is made in one of the places that `NetworkMakes` lists. -/
theorem exec_makes (h : exec Γ ch x w = some p) : ∀ y ∈ p.2, NetworkMakes Γ ch w x y := by
  intro y hy
  cases x with
  | app i c =>
    obtain ⟨q, hq, rfl⟩ := exec_app h
    obtain ⟨z, hz, rfl⟩ := List.mem_map.1 hy
    exact .inside (KademliaNode.exec_makes hq z hz)
  | call i c => cases h; exact List.mem_singleton.1 hy ▸ .handOn
  | tick =>
    cases h
    rcases List.mem_pair.1 hy with rfl | rfl
    · exact .inhabitants
    · exact .endTick
  | inhabitant after =>
    cases h
    dsimp only at hy
    split at hy
    · cases hy
    · rename_i address i hn
      rcases List.mem_cons.1 hy with rfl | hy
      · exact .tick hn
      · rcases List.mem_pair.1 hy with rfl | rfl
        · exact .outbound hn
        · exact .nextInhabitant hn
  | outbound i total => cases h; exact outbound_makes i total y hy
  | passAlongMessage m =>
    cases h
    simp only [passAlongMessage] at hy
    split at hy
    · cases hy
    · rename_i i hf
      exact List.mem_singleton.1 hy ▸ .recv hf
  | add i =>
    cases h
    simp only [add] at hy
    split_ifs at hy with hne
    · cases hy
    · exact List.mem_singleton.1 hy ▸ .settle hne (find?_getNewAddress hne)
  | settle i a => cases h; exact List.mem_singleton.1 hy ▸ .catchUp
  | endTick => cases h; cases hy
  | remove i => cases h; cases hy

/-- Every call changes a network in one of these ways. -/
theorem exec_changes (h : exec Γ ch x w = some p) : NetworkChanges Γ ch w x p.1 := by
  cases x with
  | app i c =>
    obtain ⟨q, hq, rfl⟩ := exec_app h
    exact .inside hq
  | outbound i total => cases h; exact .unqueueOut
  | endTick => cases h; exact .endTick
  | settle i a => cases h; exact .settle
  | remove i => cases h; exact .remove
  | _ => cases h; exact .nothing

/-- What a call does to one application: nothing, or the call is one of the application, or the network takes a message from
it or gives it an address. -/
theorem applications_cases (h : exec Γ ch x w = some p) (i : Fin N) :
    p.1.applications i = w.applications i ∨
      (∃ c q, x = .app i c ∧ KademliaNode.exec Γ ch.toChoice c (w.applications i) = some q ∧ p.1.applications i = q.1) ∨
      (∃ total, x = .outbound i total ∧ p.1.applications i = (w.applications i).unqueueOut) ∨
      ∃ a, x = .settle i a ∧ p.1.applications i =
        (w.applications i).setBase { (w.applications i).toBaseApplication with address := a } := by
  obtain ⟨w', cs⟩ := p
  have hch : NetworkChanges Γ ch w x w' := exec_changes h
  cases hch with
  | @inside j c q hq =>
    by_cases hj : i = j
    · subst hj
      exact Or.inr (Or.inl ⟨c, q, rfl, hq, applications_setApplication_self ..⟩)
    · exact Or.inl (applications_setApplication_of_ne w hj _)
  | @unqueueOut j total =>
    by_cases hj : i = j
    · subst hj
      exact Or.inr (Or.inr (Or.inl ⟨total, rfl, applications_setApplication_self ..⟩))
    · exact Or.inl (applications_setApplication_of_ne w hj _)
  | @settle j a =>
    by_cases hj : i = j
    · subst hj
      exact Or.inr (Or.inr (Or.inr ⟨a, rfl, applications_setApplication_self ..⟩))
    · exact Or.inl (applications_setApplication_of_ne w hj _)
  | _ => exact Or.inl rfl

end CentralizedNetwork

end Dhtsim
