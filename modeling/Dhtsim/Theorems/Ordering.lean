import Dhtsim.Lemmas.Senders
import Dhtsim.Lemmas.Rounds
import Dhtsim.Theorems.Pace

/-!
# Messages come in order

Between two nodes messages are handled in the order in which they were queued, each at most once. Among inhabitants each is, and
in time.
-/

namespace Dhtsim

open CallMachine KademliaNode

namespace OrderingAux

open TransfersAux AnsweredAux ResidentsAux

variable {N : Nat} {Γ : Ctx} {config : Fin N → Config} {key : Fin N → KademliaKey} {offset : Fin N → Time} {limit : UInt32}
  {ok : NetworkConfig N → NetworkLabel N → Prop} {m m' : NetworkConfig N} {l : NetworkLabel N} {i j : Fin N} {msg : Message UInt32}
  {es : List (Transfer N)}

/-- What comes to a node is handed to it over the loop of its sender. -/
theorem of_received (h : .received i j msg ∈ transfers m l) :
    ∃ total tail, m.stack = .app j (.base (.recv msg)) :: .outbound i total :: tail := by
  obtain ⟨w, stack, tr⟩ := m
  cases l with
  | run ch =>
    cases stack with
    | nil => cases h
    | cons x rest =>
      have h : .received i j msg ∈ x.transfers ch w rest := h
      unfold NetworkCall.transfers at h
      split at h
      · split at h
        · split at h
          · cases List.mem_singleton.1 h
            exact ⟨_, _, rfl⟩
          · cases h
        · cases h
      · obtain ⟨_, -, heq⟩ := List.mem_map.1 h
        cases heq
      · split at h
        · obtain ⟨_, -, heq⟩ := List.mem_map.1 h
          cases heq
        · cases h
      · obtain ⟨_, -, heq⟩ := List.mem_map.1 h
        cases heq
      · cases h
  | enter c => cases h
  | leave => cases h

/-- What came from one node to another names both. -/
theorem named_of_received (hΓ : Γ.Decodes) (hok : ∀ m l, ok m l → freshNetworkTags m l = true ∧ properUse m l = true)
    (h : Journal (networkProgram Γ N) ok transfers (startNetwork config key offset limit) es m) :
    ∀ e ∈ es, ∀ i j msg, e = .received i j msg → NamedBy m i msg ∧ addressOf m j ≠ 0 ∧ msg.destination = addressOf m j := by
  have hsettled : ∀ m l m', Run (networkProgram Γ N) ok (startNetwork config key offset limit) m → ok m l →
      Step (networkProgram Γ N) m l m' → Settled m m' :=
    fun m l m' hr hl hs => HonestyAux.settled_of_run hok (fun _ _ h => h) hr (Run.refl.step hl hs.step_eq)
  refine h.entries (Q := fun e m => ∀ i j msg, e = .received i j msg →
    NamedBy m i msg ∧ addressOf m j ≠ 0 ∧ msg.destination = addressOf m j) ?_ ?_
  · rintro m l m' hr hl hs e he i j msg rfl
    obtain ⟨total, tail, hstack⟩ := of_received he
    have hmem : .app j (.base (.recv msg)) ∈ m.stack := hstack ▸ List.mem_cons_self
    have hA : AddressState m := addressState_of_run (fun m l h => addedOnce_of_properUse (hok m l h).2) hr
    have hto : addressOf m j ≠ 0 := hA.subject _ hmem j rfl
    have hfrom : NamedBy m i msg := by
      refine (senderState_of_run hΓ hok hr).underway i msg ?_
      rw [hstack, underwayFrom_loop rfl, if_pos rfl]
      exact List.mem_singleton_self msg
    have hdest : msg.destination = addressOf m j :=
      ((honestState_of_run hΓ hok hr).2.calls j _ hmem).handles msg rfl (by simp)
    have haddr := hsettled m l m' hr hl hs j hto
    exact ⟨hfrom.mono (hsettled m l m' hr hl hs), haddr.symm ▸ hto, hdest.trans haddr.symm⟩
  · rintro m l m' hr hl hs e he i j msg rfl
    obtain ⟨hfrom, hto, hdest⟩ := he i j msg rfl
    have haddr := hsettled m l m' hr hl hs j hto
    exact ⟨hfrom.mono (hsettled m l m' hr hl hs), haddr.symm ▸ hto, hdest.trans haddr.symm⟩

/-- What came to a node and names another as its originator is what came from that one and is for the node. -/
theorem filter_received (hA : AddressState m) (hnamed : ∀ e ∈ es, ∀ i j msg, e = .received i j msg →
      NamedBy m i msg ∧ addressOf m j ≠ 0 ∧ msg.destination = addressOf m j) (i j : Fin N) :
    (es.flatMap (Transfer.receivedBy j)).filter (fun msg => msg.originator = addressOf m i) =
      (es.flatMap (Transfer.receivedFrom i)).filter (fun msg => msg.destination = addressOf m j) := by
  rw [List.filter_flatMap, List.filter_flatMap]
  refine List.flatMap_congr (fun e he => ?_)
  cases e with
  | received i' j' msg =>
    obtain ⟨⟨hi, horig⟩, hj, hdest⟩ := hnamed _ he i' j' msg rfl
    have hfrom : msg.originator = addressOf m i ↔ i' = i := by
      rw [horig]
      exact ⟨fun heq => hA.unique i' i heq hi, fun heq => heq ▸ rfl⟩
    have hto : msg.destination = addressOf m j ↔ j' = j := by
      rw [hdest]
      exact ⟨fun heq => hA.unique j' j heq hj, fun heq => heq ▸ rfl⟩
    simp only [Transfer.receivedBy, Transfer.receivedFrom]
    by_cases hi' : i' = i <;> by_cases hj' : j' = j <;> simp [hi', hj', hfrom, hto]
  | _ => rfl

/-- What a node handled, or has in its inbound queue, in the name of another is part of what came from the other. -/
theorem handled_of_journal (hΓ : Γ.Decodes) (hok : ∀ m l, ok m l → freshNetworkTags m l = true ∧ properUse m l = true)
    (h : Journal (networkProgram Γ N) ok transfers (startNetwork config key offset limit) es m) (i j : Fin N) :
    (es.flatMap (Transfer.handledBy j) ++ (m.state.applications j).inqueue).filter (fun msg => msg.originator = addressOf m i) =
      (es.flatMap (Transfer.receivedFrom i)).filter (fun msg => msg.destination = addressOf m j) := by
  have hA : AddressState m := addressState_of_run (fun m l h => addedOnce_of_properUse (hok m l h).2) h.run
  rw [← receivedBy_of_journal h j]
  exact filter_received hA (named_of_received hΓ hok h) i j

/-- Among inhabitants no message is lost. -/
theorem loses_of_calm (hΓ : Γ.Decodes)
    (hr : Run (networkProgram Γ N) (fun m l => calm m l = true) (startNetwork config key offset limit) m)
    (hl : calm m l = true) : loses m l = false := by
  have hK : KnownState Γ m := knownState_of_run hΓ (fun _ _ => nobodyLeaves_of_calm) hr
  obtain ⟨w, stack, tr⟩ := m
  cases l with
  | run ch =>
    cases stack with
    | nil => rfl
    | cons x rest =>
      have hfree : x.unhindered w = true := unhindered_of_amongInhabitants (amongInhabitants_of_calm hl).1
      change x.loses w = false
      cases x with
      | outbound i total =>
        simp only [NetworkCall.unhindered] at hfree
        simp only [NetworkCall.loses]
        cases hqueue : (w.applications i).outqueue.head? with
        | none => rfl
        | some msg =>
          rw [hqueue] at hfree
          exact decide_eq_false (Nat.not_lt.2 (of_decide_eq_true hfree))
      | passAlongMessage msg =>
        obtain ⟨j, hj⟩ := (hK.carried _ List.mem_cons_self msg rfl).destination
        exact Option.isNone_eq_false_iff.2 (hj ▸ rfl)
      | app j c =>
        cases c with
        | base b =>
          cases b with
          | recv msg => exact decide_eq_false (Nat.not_le.2 (of_decide_eq_true hfree))
          | _ => rfl
        | _ => rfl
      | _ => rfl
  | enter c => rfl
  | leave => rfl

/-- What a node queues is in its queue after the step. -/
theorem mem_outqueue_of_queued (hr : Run (networkProgram Γ N) ok (startNetwork config key offset limit) m)
    (hs : Step (networkProgram Γ N) m l m') (h : .queued i msg ∈ transfers m l) : msg ∈ (m'.state.applications i).outqueue := by
  have hqueued : msg ∈ (transfers m l).flatMap (Transfer.queuedBy i) := by
    refine List.mem_flatMap.2 ⟨_, h, ?_⟩
    rw [Transfer.queuedBy, if_pos rfl]
    exact List.mem_singleton_self msg
  have hout := outqueue_step hr hs i
  cases hs with
  | @run ch x rest w tr w' cs hw he =>
    have h : .queued i msg ∈ x.transfers ch w rest := h
    have hne : ∀ total, x ≠ .outbound i total := by
      rintro total rfl
      obtain ⟨_, -, heq⟩ := List.mem_map.1 h
      cases heq
    have hnone : (x.transfers ch w rest).flatMap (Transfer.unqueuedFrom i) = [] := unqueuedFrom_of_ne hne
    have hout : (w.applications i).outqueue ++ (x.transfers ch w rest).flatMap (Transfer.queuedBy i) =
        (x.transfers ch w rest).flatMap (Transfer.unqueuedFrom i) ++ (w'.applications i).outqueue := hout
    rw [hnone, List.nil_append] at hout
    exact hout ▸ List.mem_append_right _ hqueued
  | event | reentry | leave => cases h

/-- All that a node queues among inhabitants is for one of them. -/
theorem livesAt_of_queued (hΓ : Γ.Decodes)
    (h : Journal (networkProgram Γ N) (fun m l => calm m l = true) transfers (startNetwork config key offset limit) es m) :
    ∀ e ∈ es, ∀ i msg, e = .queued i msg → m.state.livesAt msg.destination := by
  refine h.entries (Q := fun e m => ∀ i msg, e = .queued i msg → m.state.livesAt msg.destination) ?_ ?_
  · rintro m l m' hr hl hs e he i msg rfl
    have hK : KnownState Γ m' := knownState_of_run hΓ (fun _ _ => nobodyLeaves_of_calm) (hr.step hl hs.step_eq)
    exact (hK.messages i msg (mem_messages.2 (Or.inr (Or.inl (mem_outqueue_of_queued hr hs he))))).destination
  · rintro m l m' hr hl hs e he i msg rfl
    obtain ⟨j, hj⟩ := he i msg rfl
    have hA : AddressState m := (residentState_of_run (fun _ _ => nobodyLeaves_of_calm) hr).addresses
    exact ⟨j, find?_step hA (nobodyLeaves_of_calm hl).1 hs hj⟩

/-- What a node queued names it. -/
theorem named_of_queued (hΓ : Γ.Decodes) (hok : ∀ m l, ok m l → freshNetworkTags m l = true ∧ properUse m l = true)
    (h : Journal (networkProgram Γ N) ok transfers (startNetwork config key offset limit) es m) :
    ∀ e ∈ es, ∀ i msg, e = .queued i msg → NamedBy m i msg := by
  refine h.entries (Q := fun e m => ∀ i msg, e = .queued i msg → NamedBy m i msg) ?_ ?_
  · rintro m l m' hr hl hs e he i msg rfl
    exact (senderState_of_run hΓ hok (hr.step hl hs.step_eq)).queues i msg (mem_outqueue_of_queued hr hs he)
  · rintro m l m' hr hl hs e he i msg rfl
    exact (he i msg rfl).mono (HonestyAux.settled_of_run hok (fun _ _ h => h) hr (Run.refl.step hl hs.step_eq))

theorem of_mem_queuedBy {msg : Message UInt32} (h : msg ∈ es.flatMap (Transfer.queuedBy i)) : .queued i msg ∈ es := by
  obtain ⟨e, he, hmem⟩ := List.mem_flatMap.1 h
  cases e with
  | queued i' msg' =>
    simp only [Transfer.queuedBy] at hmem
    split at hmem
    · next hi =>
      subst hi
      cases List.mem_singleton.1 hmem
      exact he
    · cases hmem
  | _ => cases hmem

theorem proper_of_calmNetwork (h : calmNetwork m l = true) : freshNetworkTags m l = true ∧ properUse m l = true :=
  Bool.and_eq_true_iff.1 (Bool.and_eq_true_iff.1 h).2

theorem calm_of_calmNetwork (h : calmNetwork m l = true) : calm m l = true := (Bool.and_eq_true_iff.1 h).1

section Calm

variable {m₁ m₂ : NetworkConfig N} {es₁ es₂ : List (Transfer N)}
  (h₁ : Journal (networkProgram Γ N) (fun m l => calmNetwork m l = true) transfers (startNetwork config key offset limit) es₁ m₁)
  (h₂ : Journal (networkProgram Γ N) (fun m l => calmNetwork m l = true) transfers m₁ es₂ m)

include h₁ in
theorem residents : ResidentState m₁ :=
  residentState_of_run (fun _ _ => nobodyLeaves_of_calm) (h₁.run.mono (fun _ _ => calm_of_calmNetwork))

include h₁ h₂ in
theorem addressOf_stays (hne : addressOf m₁ i ≠ 0) : addressOf m i = addressOf m₁ i :=
  address_of_run (fun _ _ h => addedOnce_of_properUse (proper_of_calmNetwork h).2) h₁.run h₂.run hne

include h₁ h₂ in
/-- When a node queues a message for another, both are inhabitants. -/
theorem settled_of_queued (hΓ : Γ.Decodes) (hqueued : msg ∈ es₁.flatMap (Transfer.queuedBy i))
    (hdest : msg.destination = addressOf m j) : addressOf m₁ i ≠ 0 ∧ addressOf m₁ j ≠ 0 := by
  refine ⟨(named_of_queued hΓ (fun _ _ => proper_of_calmNetwork) h₁ _ (of_mem_queuedBy hqueued) i msg rfl).1, ?_⟩
  obtain ⟨k, hk⟩ := livesAt_of_queued hΓ (h₁.mono (fun _ _ => calm_of_calmNetwork)) _ (of_mem_queuedBy hqueued) i msg rfl
  obtain ⟨haddr, hne⟩ := (residents h₁).addresses.inhabits _ _ hk
  have hstays : addressOf m k = addressOf m₁ k := addressOf_stays h₁ h₂ (haddr.symm ▸ hne)
  have hlast : addressOf m k = addressOf m j := hstays.trans (haddr.trans hdest)
  obtain rfl : k = j := by
    refine (residents (h₁.trans h₂)).addresses.unique k j hlast ?_
    rw [hstays, haddr]
    exact hne
  rw [haddr]
  exact hne

include h₁ in
/-- What a node queued before its outbound queue was empty another one has handled when its inbound queue was empty after that. -/
theorem prefix_of_emptied (hΓ : Γ.Decodes) (hout : (m₁.state.applications i).outqueue = [])
    (h₂ : Journal (networkProgram Γ N) (fun m l => calmNetwork m l = true) transfers m₁ es₂ m₂)
    (hin : (m₂.state.applications j).inqueue = []) (hnone : underwayFrom i m₂.stack = []) :
    (es₁.flatMap (Transfer.queuedBy i)).filter (fun msg => msg.destination = addressOf m₂ j) <+:
      ((es₁ ++ es₂).flatMap (Transfer.handledBy j)).filter (fun msg => msg.originator = addressOf m₂ i) := by
  have h := h₁.trans h₂
  have hqueued : es₁.flatMap (Transfer.queuedBy i) = es₁.flatMap (Transfer.unqueuedFrom i) := by
    rw [queuedBy_of_journal h₁ i, hout, List.append_nil]
  have hkept : (es₁ ++ es₂).flatMap (Transfer.unqueuedFrom i) = (es₁ ++ es₂).flatMap (Transfer.receivedFrom i) := by
    rw [receivedFrom_of_journal_of_keeps (fun m l hr hl =>
      loses_of_calm hΓ (hr.mono (fun _ _ => calm_of_calmNetwork)) (calm_of_calmNetwork hl)) h i, hnone, List.append_nil]
  have hhandled := handled_of_journal hΓ (fun _ _ => proper_of_calmNetwork) h i j
  rw [hin, List.append_nil] at hhandled
  rw [hqueued, hhandled, ← hkept]
  exact ((List.prefix_append es₁ es₂).flatMap _).filter _

end Calm

end OrderingAux

open OrderingAux TransfersAux AnsweredAux ResidentsAux

/-- Messages come in order. In a run of a network that is used properly, with fresh tags and addresses, whatever else happens,
what a node handled in the name of another is part of what the other put into its outbound queue for it, in the same order and no
message more often; and then comes what still waits in its inbound queue. No node handles a message that nobody sent. -/
theorem handled_in_order {N : Nat} {Γ : Ctx} (hΓ : Γ.Decodes) {config : Fin N → Config} {key : Fin N → KademliaKey}
    {offset : Fin N → Time} {limit : UInt32} {m : NetworkConfig N} {es : List (Transfer N)}
    (h : Journal (networkProgram Γ N) (fun m l => properNetwork m l = true) transfers (startNetwork config key offset limit) es m) :
    (∀ i j, ((es.flatMap (Transfer.handledBy j) ++ (m.state.applications j).inqueue).filter
        (fun msg => msg.originator = (m.state.applications i).address)).Sublist
      ((es.flatMap (Transfer.queuedBy i)).filter (fun msg => msg.destination = (m.state.applications j).address))) ∧
    ∀ j, ∀ msg ∈ es.flatMap (Transfer.handledBy j), msg.destination = (m.state.applications j).address ∧
      ∃ i, msg.originator = (m.state.applications i).address ∧ msg ∈ es.flatMap (Transfer.queuedBy i) := by
  have hok : ∀ m l, properNetwork (N := N) m l = true → freshNetworkTags m l = true ∧ properUse m l = true :=
    fun m l hl => Bool.and_eq_true_iff.1 hl
  have hqueued : ∀ i, (es.flatMap (Transfer.receivedFrom i)).Sublist (es.flatMap (Transfer.queuedBy i)) := by
    intro i
    have hfrom := receivedFrom_of_journal h i
    rw [queuedBy_of_journal h i]
    exact ((List.sublist_append_left _ _).trans hfrom).trans (List.sublist_append_left _ _)
  refine ⟨fun i j => ?_, fun j msg hmsg => ?_⟩
  · rw [handled_of_journal hΓ hok h i j]
    exact (hqueued i).filter _
  · have hreceived : msg ∈ es.flatMap (Transfer.receivedBy j) := receivedBy_of_journal h j ▸ List.mem_append_left _ hmsg
    obtain ⟨e, he, hmem⟩ := List.mem_flatMap.1 hreceived
    cases e with
    | received i j' msg' =>
      simp only [Transfer.receivedBy] at hmem
      split at hmem
      · next hj =>
        subst hj
        cases List.mem_singleton.1 hmem
        obtain ⟨hfrom, -, hdest⟩ := named_of_received hΓ hok h _ he i j' msg rfl
        refine ⟨hdest, i, hfrom.2, (hqueued i).subset (List.mem_flatMap.2 ⟨_, he, ?_⟩)⟩
        rw [Transfer.receivedFrom, if_pos rfl]
        exact List.mem_singleton_self msg
      · cases hmem
    | _ => cases hmem

/-- Node 1 handles the ping of node 0 in the tick after that. -/
theorem handled_in_order_sample : ∃ (m : NetworkConfig 2) (es : List (Transfer 2)) (msg : Message UInt32),
    es.flatMap (Transfer.handledBy 1) = [msg] ∧ msg.destination = (m.state.applications 1).address ∧
      ∃ i, msg.originator = (m.state.applications i).address ∧ msg ∈ es.flatMap (Transfer.queuedBy i) := by
  obtain ⟨es, m, hj, hm⟩ := exists_journal_of_record (networkProgram .reference 2) properNetwork transfers (sampleNetwork 1024)
    (pingAfterTick 0 1 ++ [.enter .tick] ++ networkRuns 0 68 38)
    (fun es _ => (es.flatMap (Transfer.handledBy 1)).length == 1) (by decide +kernel)
  obtain ⟨msg, hmsg⟩ := List.length_eq_one_iff.1 (of_decide_eq_true hm)
  exact ⟨m, es, msg, hmsg, (handled_in_order Ctx.reference_decodes hj).2 1 msg (hmsg ▸ List.mem_singleton_self msg)⟩

/-- Among inhabitants every message comes, once and in order. In a run in which no node dies or is removed, each node is added once,
no limit of a queue or of a link is hit, `Time` does not wrap, tags and addresses are drawn fresh, and whoever asks something of a
node names other inhabitants, and observes them by their own keys, what a node queued for another is what the other handled in its
name, then what waits there, what is underway to it and what waits to be sent; and all that is queued is for inhabitants. -/
theorem handled_once {N : Nat} {Γ : Ctx} (hΓ : Γ.Decodes) {config : Fin N → Config} {key : Fin N → KademliaKey}
    {offset : Fin N → Time} {limit : UInt32} {m : NetworkConfig N} {es : List (Transfer N)}
    (h : Journal (networkProgram Γ N) (fun m l => calmNetwork m l = true) transfers (startNetwork config key offset limit) es m)
    (i : Fin N) :
    (∀ j, (es.flatMap (Transfer.queuedBy i)).filter (fun msg => msg.destination = (m.state.applications j).address) =
      (es.flatMap (Transfer.handledBy j) ++ (m.state.applications j).inqueue).filter
        (fun msg => msg.originator = (m.state.applications i).address) ++
      (underwayFrom i m.stack ++ (m.state.applications i).outqueue).filter
        (fun msg => msg.destination = (m.state.applications j).address)) ∧
    ∀ msg ∈ es.flatMap (Transfer.queuedBy i), m.state.livesAt msg.destination := by
  have hcalm : ∀ m l, calmNetwork (N := N) m l = true → calm m l = true := fun _ _ => calm_of_calmNetwork
  refine ⟨fun j => ?_, fun msg hmsg => ?_⟩
  · have hkept : es.flatMap (Transfer.unqueuedFrom i) = es.flatMap (Transfer.receivedFrom i) ++ underwayFrom i m.stack :=
      receivedFrom_of_journal_of_keeps (fun m l hr hl => loses_of_calm hΓ (hr.mono hcalm) (hcalm m l hl)) h i
    rw [handled_of_journal hΓ (fun _ _ => proper_of_calmNetwork) h i j, queuedBy_of_journal h i, hkept, List.append_assoc,
      List.filter_append]
  · exact livesAt_of_queued hΓ (h.mono hcalm) _ (of_mem_queuedBy hmsg) i msg rfl

/-- After the tick the ping waits to be handled. -/
theorem handled_once_sample : ∃ (m : NetworkConfig 2) (es : List (Transfer 2)) (msg : Message UInt32),
    (m.state.applications 1).inqueue = [msg] ∧ msg.destination = (m.state.applications 1).address ∧
      (es.flatMap (Transfer.queuedBy 0)).filter (fun msg => msg.destination = (m.state.applications 1).address) = [msg] := by
  obtain ⟨es, m, hj, hm⟩ := exists_journal_of_record (networkProgram .reference 2) calmNetwork transfers (sampleNetwork 1024)
    (pingAfterTick 0 1) (fun es m => decide (es.flatMap (Transfer.handledBy 1) = []) &&
      decide (m.stack = []) && decide ((m.state.applications 0).outqueue = []) &&
      ((m.state.applications 1).inqueue.length == 1) &&
      (m.state.applications 1).inqueue.all (fun msg => decide (msg.originator = (m.state.applications 0).address ∧
        msg.destination = (m.state.applications 1).address))) (by decide +kernel)
  simp only [Bool.and_eq_true, decide_eq_true_eq] at hm
  obtain ⟨⟨⟨⟨hnone, hstack⟩, hout⟩, hone⟩, hall⟩ := hm
  obtain ⟨msg, hmsg⟩ := List.length_eq_one_iff.1 (of_decide_eq_true hone)
  rw [hmsg, List.all_cons, Bool.and_eq_true, decide_eq_true_eq] at hall
  obtain ⟨⟨horig, hdest⟩, -⟩ := hall
  refine ⟨m, es, msg, hmsg, hdest, ?_⟩
  have honce := (handled_once Ctx.reference_decodes hj 0).1 1
  rw [hnone, hmsg, hstack, hout] at honce
  rw [honce]
  simp [horig, underwayFrom]

/-- Among inhabitants messages come in time. In a run as in `handled_once` (nobody leaves, each node is added once, no limit is hit,
`Time` does not wrap, fresh tags and addresses, others named truthfully), what a node queued for another before some point the other
has handled, in this order and before all else of that node, when two more ticks have ended after the one that was underway then. -/
theorem delivered_in_time {N : Nat} {Γ : Ctx} (hΓ : Γ.Decodes) {config : Fin N → Config} {key : Fin N → KademliaKey}
    {offset : Fin N → Time} {limit : UInt32} {m₁ m : NetworkConfig N} {es₁ es₂ : List (Transfer N)}
    (h₁ : Journal (networkProgram Γ N) (fun m l => calmNetwork m l = true) transfers (startNetwork config key offset limit) es₁ m₁)
    (h₂ : Journal (networkProgram Γ N) (fun m l => calmNetwork m l = true) transfers m₁ es₂ m)
    (hlater : m₁.state.epoch.toNat + 3 ≤ m.state.epoch.toNat) (i j : Fin N) :
    (es₁.flatMap (Transfer.queuedBy i)).filter (fun msg => msg.destination = (m.state.applications j).address) <+:
      ((es₁ ++ es₂).flatMap (Transfer.handledBy j)).filter (fun msg => msg.originator = (m.state.applications i).address) := by
  cases hfor : (es₁.flatMap (Transfer.queuedBy i)).filter (fun msg => msg.destination = (m.state.applications j).address) with
  | nil => exact List.nil_prefix
  | cons msg msgs =>
    rw [← hfor]
    obtain ⟨hqueued, hdest⟩ := List.mem_filter.1 (hfor.symm ▸ List.mem_cons_self : msg ∈ List.filter _ _)
    obtain ⟨hi, hj⟩ := settled_of_queued h₁ h₂ hΓ hqueued (of_decide_eq_true hdest)
    -- first all that waits at the one node is passed along, and then all that waits at the other is handled
    have hlives : m₁.state.inhabited i := ⟨_, (residents h₁).resides i hi⟩
    obtain ⟨es, later, m₂, rfl, h, ⟨hout, hepoch⟩, h₂'⟩ :=
      outqueue_emptied (fun _ _ => calm_of_calmNetwork) h₁.run h₂ hlives (by omega)
    have hj₂ : addressOf m₂ j ≠ 0 := (addressOf_stays h₁ h hj).symm ▸ hj
    have hlives₂ : m₂.state.inhabited j := ⟨_, (residents (h₁.trans h)).resides j hj₂⟩
    obtain ⟨es', later, m₃, rfl, h', ⟨hin, hnone⟩, -⟩ :=
      inqueue_emptied (fun _ _ => calm_of_calmNetwork) (h₁.trans h).run h₂' hlives₂ (by omega) i
    have haddrs : ∀ {k}, addressOf m₁ k ≠ 0 → (m.state.applications k).address = addressOf m₃ k :=
      fun hne => (addressOf_stays h₁ h₂ hne).trans (addressOf_stays h₁ (h.trans h') hne).symm
    have hhandled := prefix_of_emptied (h₁.trans h) hΓ hout h' hin hnone
    have hlast : es₁ ++ (es ++ (es' ++ later)) = es₁ ++ es ++ es' ++ later := by simp only [List.append_assoc]
    rw [haddrs hi, haddrs hj, hlast]
    exact ((((List.prefix_append es₁ es).flatMap _).filter _).trans hhandled).trans
      (((List.prefix_append (es₁ ++ es ++ es') later).flatMap _).filter _)

/-- The ping that waits in the queue of node 0 is handled three ticks later. -/
theorem delivered_in_time_sample : ∃ (m : NetworkConfig 2) (es₁ es₂ : List (Transfer 2)) (msg : Message UInt32),
    msg ∈ es₁.flatMap (Transfer.queuedBy 0) ∧ msg.destination = (m.state.applications 1).address ∧
      msg ∈ (es₁ ++ es₂).flatMap (Transfer.handledBy 1) := by
  obtain ⟨es₁, m₁, h₁, hm₁⟩ := exists_journal_of_record (networkProgram .reference 2) calmNetwork transfers (sampleNetwork 1024)
    ((pingAfterTick 0 1).take 45) (fun es₁ m₁ => (record (networkProgram .reference 2) calmNetwork transfers m₁
      ((pingAfterTick 0 1).drop 45 ++ [.enter .tick] ++ networkRuns 0 68 38 ++ [.enter .tick] ++ networkRuns 0 106 21)).any
      (fun p => decide (m₁.state.epoch.toNat + 3 ≤ p.2.state.epoch.toNat) &&
        (es₁.flatMap (Transfer.queuedBy 0)).any (fun msg => decide (msg.destination = (p.2.state.applications 1).address))))
    (by decide +kernel)
  obtain ⟨es₂, m, h₂, hm⟩ := exists_journal_of_record (networkProgram .reference 2) calmNetwork transfers m₁ _
    (fun _ m => decide (m₁.state.epoch.toNat + 3 ≤ m.state.epoch.toNat) &&
      (es₁.flatMap (Transfer.queuedBy 0)).any (fun msg => decide (msg.destination = (m.state.applications 1).address))) hm₁
  simp only [Bool.and_eq_true, decide_eq_true_eq, List.any_eq_true] at hm
  obtain ⟨hlater, msg, hmsg, hdest⟩ := hm
  refine ⟨m, es₁, es₂, msg, hmsg, hdest, ?_⟩
  have hmem := (delivered_in_time Ctx.reference_decodes h₁ h₂ hlater 0 1).subset
    (List.mem_filter.2 ⟨hmsg, decide_eq_true hdest⟩)
  exact (List.mem_filter.1 hmem).1

end Dhtsim
