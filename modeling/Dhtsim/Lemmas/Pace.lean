import Dhtsim.Lemmas.Lookups
import Dhtsim.Theorems.Answered
import Mathlib.Data.Finset.Card

/-!
# The pace of a lookup

A lookup asks one contact after the other, and goes on in the very tick in which a contact replies. Among inhabitants a reply takes
two ticks at most, so the ticks that a lookup has seen are at most twice the contacts that it has asked (`Paced`).
-/

namespace Dhtsim

open CallMachine KademliaNode

/-- The contacts that the lookup of node `i` for the target has asked. -/
def askedBy {N : Nat} (i : Fin N) (t : KademliaKey) (tr : NetworkTrace N) : List BucketEntry := queriedFor t (tr.flatMap (runsIn i))

/-- The ticks that ended since the lookup of node `i` for the target began. -/
def ticksLooking {N : Nat} (i : Fin N) (t : KademliaKey) : NetworkTrace N → Nat
  | [] => 0
  | (x, _) :: tr =>
    if x = .app i (.eraseFinder t) then 0
    else if x = .endTick then
      if startedBy t (tr.flatMap (runsIn i)) = [] then 0 else ticksLooking i t tr + 1
    else ticksLooking i t tr

/-- A lookup keeps its pace: it has seen two ticks at most for each contact that it asked, and when the request that it waits for
is due it will not have seen more. -/
structure Paced {N : Nat} (i : Fin N) (t : KademliaKey) (m : NetworkConfig N) : Prop where
  ticks : ticksLooking i t m.trace ≤ 2 * (askedBy i t m.trace).length
  records : ∀ tag r, (m.state.applications i).callbacks.find? tag = some r → r.callback.belongsTo t = true →
    .app i (.base (.erase tag)) ∉ m.stack →
    r.nextSend.toNat + ticksLooking i t m.trace ≤ m.state.epoch.toNat + 2 * (askedBy i t m.trace).length

namespace PaceAux

open AnsweredAux NetworkCall

variable {N : Nat} {Γ : Ctx} {config : Fin N → Config} {key : Fin N → KademliaKey} {offset : Fin N → Time} {limit : UInt32}
  {ch : NetworkChoice} {w w' : CentralizedNetwork N} {μ μ' : Moment N} {ran : List (NetworkCall N)} {x : NetworkCall N}
  {i : Fin N} {t : KademliaKey} {m m' : NetworkConfig N} {l : NetworkLabel N} {tag : Tag} {r : SentMessage UInt32 SendFn}
  {tr : NetworkTrace N}

/-! ## The trace of a lookup -/

/-- The calls of a node that a step of the network ran ask those that the call itself asks. -/
theorem askedBy_cons (hx : x ≠ .app i (.eraseFinder t)) :
    askedBy i t ((x, ch) :: tr) = askedBy i t tr ++ (x.within i).flatMap (Call.asks t) := by
  rcases runsIn_cases i x ch with ⟨hruns, hwithin⟩ | ⟨c, hruns, rfl | ⟨hwithin, hc⟩⟩
  · rw [askedBy, List.flatMap_cons, hruns, hwithin, List.flatMap_nil, List.append_nil]
    rfl
  · have hc : c ≠ .eraseFinder t := fun hc => hx (hc ▸ rfl)
    rw [askedBy, List.flatMap_cons, hruns, within_app_self, List.flatMap_cons, List.flatMap_nil, List.append_nil]
    exact if_neg hc
  · have hnone : c ≠ .eraseFinder t ∧ c.asks t = [] := by
      rcases hc with rfl | ⟨a, rfl⟩ <;> exact ⟨by simp, rfl⟩
    rw [askedBy, List.flatMap_cons, hruns, hwithin, List.flatMap_nil, ← hnone.2]
    exact if_neg hnone.1

/-- Once the finder is erased, nobody was asked. -/
theorem askedBy_erase : askedBy i t ((NetworkCall.app i (.eraseFinder t), ch) :: tr) = [] := by
  have hruns : runsIn i (NetworkCall.app i (.eraseFinder t), ch) = [(.eraseFinder t, ch.toChoice)] := if_pos rfl
  rw [askedBy, List.flatMap_cons, hruns]
  exact if_pos rfl

theorem ticksLooking_erase : ticksLooking i t ((NetworkCall.app i (.eraseFinder t), ch) :: tr) = 0 := if_pos rfl

theorem ticksLooking_cons (hx : x ≠ .app i (.eraseFinder t)) (htick : x ≠ .endTick) :
    ticksLooking i t ((x, ch) :: tr) = ticksLooking i t tr := by
  rw [ticksLooking, if_neg hx, if_neg htick]

/-! ## One step -/

/-- Only a tick that is over but for its end ends. -/
theorem finish_of_endTick (hg : Proceeds Γ ch w μ [.endTick] w' μ') : μ = .finish := by
  cases hg with
  | aside hx => cases hx
  | ends => rfl

/-- When a tick ends, a request that is pursued has one more at least. -/
theorem lt_nextSend_of_finish (h : Pursued w .finish i tag r) (hdue : 0 < r.nextSend.toNat) :
    w.epoch.toNat + 1 ≤ r.nextSend.toNat := by
  have hle : answerBy r ≤ r.nextSend.toNat := answerBy_le
  have hdone : ∀ {now : Moment N → Prop} {j d}, DoneBy now j w .finish d → ¬ now .finish → w.epoch.toNat + 1 ≤ d :=
    fun h hnow => h.resolve_right (fun h => not_awaits_finish hnow h.1)
  cases h with
  | asking hj h =>
    cases h with
    | queued hmem hby =>
      have hby := hdone hby not_flushes_finish
      omega
    | passing hμ => cases hμ
    | arrived hmem hby =>
      have hby := hdone hby not_leads_finish
      omega
  | replying hj hne htag hdest h =>
    cases h with
    | queued hmem hby =>
      have hby := hdone hby not_flushes_finish
      omega
    | passing hμ => cases hμ
    | arrived hmem hby => exact hdone hby not_leads_finish
  | answering hj hne hc hmem => cases hmem
  | resolving hc htag hmem => cases hmem
  | @erasing above below hcalls hdrain => cases above <;> cases hcalls

/-- As long as a record is there, whoever is about to erase it still is. -/
theorem erase_waits (hs : Step (networkProgram Γ N) m l m') (hmem : .app i (.base (.erase tag)) ∈ m.stack)
    (hrec' : (m'.state.applications i).callbacks.find? tag = some r) : .app i (.base (.erase tag)) ∈ m'.stack := by
  cases hs with
  | @run ch x rest w tr w' cs hw he =>
    rcases List.mem_cons.1 hmem with rfl | hmem
    · have he : CentralizedNetwork.exec Γ ch (.app i (.base (.erase tag))) w = some (w', cs) := he
      obtain ⟨q, hexec, heq⟩ := CentralizedNetwork.exec_app he
      obtain ⟨rfl, -⟩ := Prod.mk.inj heq
      cases hexec
      rw [CentralizedNetwork.applications_setApplication_self] at hrec'
      have hnone : ((w.applications i).callbacks.erase tag).find? tag = none := SortedMap.find?_erase_self ..
      exact absurd (hnone.symm.trans hrec') (by simp)
    · exact List.mem_append_right _ hmem
  | event hx => cases hmem
  | reentry hf hx => exact List.mem_cons_of_mem _ hmem
  | leave hf =>
    rcases List.mem_cons.1 hmem with rfl | hmem
    · cases hf
    · exact hmem

/-- When the finder of a lookup is erased, whatever record the lookup has is about to be erased too. -/
theorem erase_of_closing {rest : List Call} {n : KademliaNode} {ntr : NodeTrace}
    (h : LookupState Γ False t n (.eraseFinder t :: rest) ntr) (hn : n.RecordsRequests Γ)
    (hrec : n.callbacks.find? tag = some r) (hr : r.callback.belongsTo t = true) : .base (.erase tag) ∈ rest := by
  have hone : (LookupAux.tracker t).pending n (.eraseFinder t :: rest) = .closing :: (LookupAux.tracker t).pending n rest := by
    rw [Tracker.pending_cons rfl]
    exact congrArg (· ++ _) (if_pos rfl)
  obtain ⟨-, -, hnil, -⟩ := LookupAux.lookupState_front h hone
  have hentry := SortedMap.find?_eq_some_iff.1 hrec
  by_contra hnot
  have herasing : tag ∉ erasing rest := by
    intro hmem
    obtain ⟨c, hc, heq⟩ := List.mem_filterMap.1 hmem
    cases c with
    | base b =>
      cases b with
      | erase tag' =>
        cases heq
        exact hnot hc
      | _ => cases heq
    | _ => cases heq
  have hset : (LookupAux.tracker t).ofSet r.callback = [] := by
    have hrecords := (List.append_eq_nil_iff.1 hnil).2
    exact List.flatMap_eq_nil_iff.1 hrecords (tag, r) (List.mem_filter.2 ⟨hentry, by simpa using herasing⟩)
  rcases LookupAux.ofSet_request (t := t) (hn tag r hentry) with ⟨-, hb⟩ | ⟨top, hb, -⟩
  · rw [hr] at hb
    cases hb
  · rw [hset] at hb
    cases hb

/-- A request that a lookup sends asks one contact. -/
theorem asks_of_belongsTo {k : KademliaKey} {msg : Message UInt32} {cb : CallbackSet SendFn} {mr : UInt32} {time : UInt64}
    (hreq : IsRequest Γ k msg cb) (hb : cb.belongsTo t = true) : ((Call.base (.send msg cb mr time)).asks t).length = 1 := by
  cases hreq with
  | ping cb htype hdata => cases hb
  | find t' top fv htype hdest hdata =>
    have ht : t' = t := by
      by_contra hne
      simp [CallbackSet.belongsTo, CallbackSet.all, CallbackSet.of, SendFn.lookupTarget, hne] at hb
    subst ht
    simp [Call.asks, CallbackSet.of, SendFn.asks]

/-- When a tick ends, a lookup waits for a contact, and the request has one tick more. -/
theorem paced_finish (hr : Run (networkProgram Γ N) (fun m l => calm m l = true) (startNetwork config key offset limit) m)
    (hI : Paced i t m) (h : Situation Γ m .finish) (hroom : m.state.epoch.toNat + 1 < 2 ^ 64)
    (hstate' : m'.state = { m.state with epoch := m.state.epoch + 1 }) (htrace' : m'.trace = (.endTick, ch) :: m.trace) :
    Paced i t m' := by
  have hfresh := run_node_freshTags (fun m l hl => freshNetworkTags_of_amongInhabitants (amongInhabitants_of_calm hl).1) hr i
  have hlookup : LookupState Γ False t (m.state.applications i) (nodeConfig i m).stack (m.trace.flatMap (runsIn i)) :=
    lookupState_of_run False (fun _ _ hl => Or.inr hl) hfresh t
  have hnil : (nodeConfig i m).stack = [] := by
    rw [nodeConfig, h.stack]
    rfl
  have hepoch : m'.state.epoch.toNat = m.state.epoch.toNat + 1 := by
    rw [hstate']
    exact toNat_epoch_succ hroom
  have hrec : (m'.state.applications i).callbacks = (m.state.applications i).callbacks := by rw [hstate']
  have hasked : askedBy i t m'.trace = askedBy i t m.trace := by
    rw [htrace', askedBy_cons (by simp)]
    exact List.append_nil _
  have hnot : ∀ tag, NetworkCall.app i (.base (.erase tag)) ∉ m.stack := by
    intro tag hmem
    rw [h.stack] at hmem
    cases List.mem_singleton.1 hmem
  rw [hnil] at hlookup
  have hticks : ticksLooking i t m'.trace =
      if startedBy t (m.trace.flatMap (runsIn i)) = [] then 0 else ticksLooking i t m.trace + 1 := by
    rw [htrace', ticksLooking, if_neg (by simp), if_pos rfl]
  by_cases hnone : startedBy t (m.trace.flatMap (runsIn i)) = []
  · rw [if_pos hnone] at hticks
    refine ⟨by omega, fun tag r hr hb _ => ?_⟩
    have hdue := hI.records tag r (hrec ▸ hr) hb (hnot tag)
    rw [hticks, hepoch, hasked]
    omega
  · rw [if_neg hnone] at hticks
    have hrecords : ∀ tag r, (m'.state.applications i).callbacks.find? tag = some r → r.callback.belongsTo t = true →
        .app i (.base (.erase tag)) ∉ m'.stack →
        r.nextSend.toNat + ticksLooking i t m'.trace ≤ m'.state.epoch.toNat + 2 * (askedBy i t m'.trace).length := by
      intro tag r hr hb _
      have hdue := hI.records tag r (hrec ▸ hr) hb (hnot tag)
      rw [hticks, hepoch, hasked]
      omega
    refine ⟨?_, hrecords⟩
    -- the lookup waits for the contact of a record, which is not due yet
    rcases LookupAux.lookupState_idle (fromRequests_of_run hfresh).1.2 hlookup with ⟨hf, -⟩ | ⟨nf, top, -, hone, -⟩
    · rcases hlookup with ⟨-, -, hview⟩ | ⟨nf, φ, hf', -, -⟩
      · exact absurd (congrArg LookupView.started hview) hnone
      · cases hf.symm.trans hf'
    · obtain ⟨⟨tag, r⟩, heq⟩ := List.length_eq_one_iff.1 hone
      have hmem : (tag, r) ∈ lookupRecords t (m.state.applications i) := heq ▸ List.mem_singleton_self _
      obtain ⟨hentry, hb⟩ := List.mem_filter.1 hmem
      have hfind : (m.state.applications i).callbacks.find? tag = some r := SortedMap.find?_eq_some_iff.2 hentry
      obtain ⟨hexpects, hpursued⟩ := h.records i tag r hfind
      have hlt := lt_nextSend_of_finish hpursued hexpects.due
      have hdue := hI.records tag r hfind hb (hnot tag)
      rw [hticks, hasked]
      omega

/-- The record of a request that a step sends is due in two ticks. -/
theorem due_of_send (hΓ : Γ.Decodes) (hlong : ∀ fm, 1 + keyLen + 4 ≤ (Γ.findNodes.write fm).length)
    (hr : Run (networkProgram Γ N) (fun m l => calm m l = true) (startNetwork config key offset limit) m)
    (h : Situation Γ m μ) (hok : calm m l = true) (hs : Step (networkProgram Γ N) m l m')
    {msg : Message UInt32} {cb : CallbackSet SendFn} {mr : UInt32} {time : UInt64}
    (hg : Proceeds Γ ch m.state μ [.app i (.base (.send msg cb mr time))] m'.state μ')
    (htrace : m'.trace = [NetworkCall.app i (.base (.send msg cb mr time))].map (fun x => (x, ch)) ++ m.trace)
    (hcb : cb.isEmpty = false)
    (hnew : r = SentMessage.new (msg.tagged ch.tag) cb (m.state.applications i).epoch
      (if time = 0 then defaultTimeout else time) mr) :
    r.nextSend.toNat ≤ m.state.epoch.toNat + 2 ∧ IsRequest Γ (key i) msg cb := by
  obtain ⟨-, hkeeps⟩ := calm_ran hok hs htrace
  have hput : ∀ msg', Call.base (.send msg cb mr time) ≠ putBack msg' := by
    rintro msg' heq
    cases heq
    cases hcb
  obtain ⟨rest, cs, hcalls, -, -⟩ := hg.on_top (by simp) hput
  obtain ⟨y, rest', rfl, hstack, heq⟩ := (ran_cases hs htrace).resolve_left (List.cons_ne_nil _ _)
  obtain rfl := (List.cons.inj heq).1
  obtain ⟨he, hnext⟩ := expects_of_send hΓ hlong (fun m l => amongInhabitants_of_calm) hr hstack
    (amongInhabitants_of_calm hok).1 (h.orderly.live i) hcb (of_decide_eq_true (hkeeps _ List.mem_cons_self)) hnew
  have hmem : .base (.send msg cb mr time) ∈ (nodeConfig i m).stack := mem_stack_nodeConfig (hstack ▸ List.mem_cons_self)
  refine ⟨?_, ?_⟩
  · rcases keeping_of_send (h.keeping i ⟨_, he.originator⟩) h.orderly hcalls with heq | ⟨heq, -⟩
    · rw [hnext, heq]
    · omega
  · rcases (fromRequests_of_run (run_node hr i)).2 _ hmem with rfl | ⟨hreq, -⟩
    · cases hcb
    · exact hreq

/-- A lookup keeps its pace in every step in which no tick ends. -/
theorem paced_proceeds (hΓ : Γ.Decodes) (hlong : ∀ fm, 1 + keyLen + 4 ≤ (Γ.findNodes.write fm).length)
    (hr : Run (networkProgram Γ N) (fun m l => calm m l = true) (startNetwork config key offset limit) m) (hI : Paced i t m)
    (h : Situation Γ m μ) (hok : calm m l = true) (hs : Step (networkProgram Γ N) m l m')
    (hg : Proceeds Γ ch m.state μ ran m'.state μ') (htrace : m'.trace = ran.map (fun x => (x, ch)) ++ m.trace)
    (hμ : μ ≠ .finish) : Paced i t m' := by
  have hepoch : m'.state.epoch = m.state.epoch := hg.epoch hμ
  have hnever : ∀ x ∈ ran, x.givesUp = false := fun x hx => h.never x (mem_stack_of_ran hs htrace x hx)
  by_cases herase : ran = [.app i (.eraseFinder t)]
  · -- with its finder a lookup loses its last record
    subst herase
    obtain ⟨y, rest, rfl, hstack, heq⟩ := (ran_cases hs htrace).resolve_left (List.cons_ne_nil _ _)
    have htrace : m'.trace = (NetworkCall.app i (.eraseFinder t), ch) :: m.trace := htrace
    refine ⟨by rw [htrace, ticksLooking_erase]; exact Nat.zero_le _, fun tag r hrec' hb hnot => ?_⟩
    obtain rfl := (List.cons.inj heq).1
    rcases record_proceeds hg hnever hrec' with hrec | ⟨_, _, _, _, heq, -⟩
    · have hfresh := run_node_freshTags (fun m l hl => freshNetworkTags_of_amongInhabitants (amongInhabitants_of_calm hl).1) hr i
      have hlookup := lookupState_of_run False (fun _ _ hl => Or.inr hl) hfresh t
      have hnode : (nodeConfig i m).stack = .eraseFinder t :: rest.flatMap (within i) := by
        rw [nodeConfig, hstack, List.flatMap_cons, within_app_self, List.singleton_append]
      rw [hnode] at hlookup
      have hmem := erase_of_closing hlookup (fromRequests_of_run hfresh).1.2 hrec hb
      have hmem : .app i (.base (.erase tag)) ∈ m.stack := by
        obtain ⟨x, hx, hc⟩ := List.mem_flatMap.1 hmem
        rw [hstack, ← eq_app_of_mem_within hc]
        exact List.mem_cons_of_mem _ hx
      exact absurd (erase_waits hs hmem hrec') hnot
    · cases heq
  · have hasked : ∃ new, askedBy i t m'.trace = askedBy i t m.trace ++ new ∧
        (∀ x ∈ ran, new = (x.within i).flatMap (Call.asks t)) ∧ ticksLooking i t m'.trace = ticksLooking i t m.trace := by
      rcases ran_cases hs htrace with rfl | ⟨x, rest, -, -, rfl⟩
      · exact ⟨[], by rw [htrace]; exact (List.append_nil _).symm, fun x hx => absurd hx List.not_mem_nil, by rw [htrace]; rfl⟩
      · have hx : x ≠ .app i (.eraseFinder t) := fun hx => herase (hx ▸ rfl)
        have htick : x ≠ .endTick := by
          rintro rfl
          exact hμ (finish_of_endTick hg)
        refine ⟨_, by rw [htrace]; exact askedBy_cons hx, fun y hy => by rw [List.mem_singleton.1 hy], ?_⟩
        rw [htrace]
        exact ticksLooking_cons hx htick
    obtain ⟨new, hnew, hasks, hticks⟩ := hasked
    have hlength : (askedBy i t m'.trace).length = (askedBy i t m.trace).length + new.length := by rw [hnew, List.length_append]
    have hbound := hI.ticks
    refine ⟨by omega, fun tag r hrec' hb hnot => ?_⟩
    rw [hepoch, hticks, hlength]
    rcases record_proceeds hg hnever hrec' with hrec | ⟨msg, cb, mr, time, rfl, hcb, -, hrnew⟩
    · have hdue := hI.records tag r hrec hb (fun hmem => hnot (erase_waits hs hmem hrec'))
      omega
    · obtain ⟨hdue, hreq⟩ := due_of_send hΓ hlong hr h hok hs hg htrace hcb hrnew
      have hone : new.length = 1 := by
        rw [hasks _ List.mem_cons_self, within_app_self, List.flatMap_cons, List.flatMap_nil, List.append_nil]
        refine asks_of_belongsTo hreq ?_
        rw [hrnew] at hb
        exact hb
      omega

/-- Every lookup keeps its pace, in every run among inhabitants. -/
theorem paced_of_run (hΓ : Γ.Decodes) (hlong : ∀ fm, 1 + keyLen + 4 ≤ (Γ.findNodes.write fm).length) (i : Fin N) (t : KademliaKey)
    (h : Run (networkProgram Γ N) (fun m l => calm m l = true) (startNetwork config key offset limit) m) : Paced i t m := by
  refine h.invariant (I := Paced i t) ⟨Nat.zero_le _, fun tag r hrec => by cases hrec⟩ ?_
  intro m l m' hr hI hok hs
  obtain ⟨μ, hsit⟩ := situation_of_run hΓ hlong hr
  obtain ⟨ch, ran, μ', -, -, htrace, hg⟩ := proceeds_of_step hsit.orderly.fits hsit.stack hs
  by_cases hμ : μ = .finish
  · subst hμ
    obtain ⟨rfl, hstate', -⟩ := hg.finish
    obtain ⟨-, hkeeps⟩ := calm_ran hok hs htrace
    exact paced_finish hr hI hsit (of_decide_eq_true (hkeeps _ List.mem_cons_self)) hstate' htrace
  · exact paced_proceeds hΓ hlong hr hI hsit hok hs hg htrace hμ

end PaceAux

end Dhtsim
