import Dhtsim.Lemmas.Honesty
import Dhtsim.Theorems.Answered
import Dhtsim.Theorems.Correlation

/-!
# What the nodes know

What a node knows of the others it has from messages alone. In a network that is used properly it is right, and where nobody
leaves it stays right.
-/

namespace Dhtsim

open CallMachine KademliaNode

/-- In a network that is used properly, with fresh tags and addresses: whatever contact a node holds, in a bucket, in a lookup, in a
request that it sent or for a ping whose answer it awaits, exactly one node has the address of the contact, it is not the holder, and
the contact has its key. Every message that waits to be handled is for the node that it waits at, and whoever sent a request asked
somebody else, in his own name. -/
theorem contacts_true {N : Nat} {Γ : Ctx} (hΓ : Γ.Decodes) {config : Fin N → Config} {key : Fin N → KademliaKey}
    {offset : Fin N → Time} {limit : UInt32} {m : NetworkConfig N}
    (h : Run (networkProgram Γ N) (fun m l => properNetwork m l = true) (startNetwork config key offset limit) m) :
    (∀ i e, (m.state.applications i).HasContact e → e.address ≠ 0 ∧ (∃! j, (m.state.applications j).address = e.address) ∧
      ∀ j, (m.state.applications j).address = e.address → j ≠ i ∧ (m.state.applications j).key = e.key) ∧
    (∀ i, ∀ msg ∈ (m.state.applications i).inqueue, msg.destination = (m.state.applications i).address) ∧
    ∀ q ∈ requests m.trace, q.message.originator = (m.state.applications q.requester).address ∧
      q.message.destination ≠ (m.state.applications q.requester).address := by
  have hok : ∀ m l, properNetwork (N := N) m l = true → freshNetworkTags m l = true ∧ properUse m l = true :=
    fun m l hl => Bool.and_eq_true_iff.1 hl
  have hH : HonestState key m := (honestState_of_run hΓ hok h).2
  have hA : AddressState m := addressState_of_run (fun m l hl => addedOnce_of_properUse (hok m l hl).2) h
  refine ⟨fun i e he => ?_, fun i msg hmsg => (hH.queues i msg hmsg).2, fun q hq => ?_⟩
  · have hcontact : Contact key m i e := hH.nodes i e he
    obtain ⟨⟨hne, j, hj, hk⟩, hkey⟩ := hcontact
    have hunique : ∀ j', (m.state.applications j').address = e.address → j' = j :=
      fun j' hj' => hA.unique j' j (hj'.trans hj.symm) (fun hzero => hne (hj'.symm.trans hzero))
    refine ⟨hne, ⟨j, hj, hunique⟩, fun j' hj' => ?_⟩
    obtain rfl := hunique j' hj'
    refine ⟨?_, (key_of_run h j').trans hk⟩
    rintro rfl
    exact hkey hk.symm
  · exact ⟨(hH.requests q hq).originator, (hH.requests q hq).destination⟩

/-- After the ping of node 0 the other node has it in a bucket. -/
theorem contacts_true_sample : ∃ (m : NetworkConfig 2) (e : BucketEntry), e ∈ (m.state.applications 1).buckets ⟨0, by decide⟩ ∧
    (∃! j, (m.state.applications j).address = e.address) ∧
      ∀ j, (m.state.applications j).address = e.address → j ≠ 1 ∧ (m.state.applications j).key = e.key := by
  obtain ⟨m, hr, hm⟩ := exists_run_of_follow (networkProgram .reference 2) properNetwork (sampleNetwork 1024)
    (pingAfterTick 0 1 ++ [.enter .tick] ++ networkRuns 0 68 38)
    (fun m : NetworkConfig 2 => ((m.state.applications 1).buckets ⟨0, by decide⟩).head?.isSome) (by decide +kernel)
  obtain ⟨e, he⟩ := Option.isSome_iff_exists.1 hm
  have he := List.mem_of_head? he
  exact ⟨m, e, he, ((contacts_true Ctx.reference_decodes hr).1 1 e (.bucket _ he)).2⟩

/-- Where no node dies or is removed, no inhabitant is added again, the tags that are drawn are not zero and differ, and whoever asks
something of a node asks an inhabitant and names inhabitants, all that the nodes know of are inhabitants: the contacts that they hold,
and whom their messages are from and for, queued or recorded. So every message that is passed along has a receiver. That is so
whatever limits of queues and of links are hit, and whatever requests run out. -/
theorem receivers_known {N : Nat} {Γ : Ctx} (hΓ : Γ.Decodes) {config : Fin N → Config} {key : Fin N → KademliaKey}
    {offset : Fin N → Time} {limit : UInt32} {m : NetworkConfig N}
    (h : Run (networkProgram Γ N) (fun m l => (nobodyLeaves m l && addsNew m l) = true)
      (startNetwork config key offset limit) m) :
    (∀ i e, (m.state.applications i).HasContact e → m.state.livesAt e.address) ∧
    (∀ i, ∀ msg ∈ (m.state.applications i).messages, m.state.livesAt msg.originator ∧ m.state.livesAt msg.destination) ∧
    ∀ msg rest ch m', m.stack = .passAlongMessage msg :: rest → step (networkProgram Γ N) m (.run ch) = some m' →
      ∃ j, m.state.inhabitants.find? msg.destination = some j ∧ m'.stack = .call j (.base (.recv msg)) :: rest := by
  have hK : KnownState Γ m := knownState_of_run hΓ (fun m l hl => Bool.and_eq_true_iff.1 hl) h
  refine ⟨hK.nodes, fun i msg hmsg => ?_, fun msg rest ch m' hstack hs => ?_⟩
  · exact ⟨(hK.messages i msg hmsg).originator, (hK.messages i msg hmsg).destination⟩
  · obtain ⟨j, hj⟩ := (hK.carried _ (hstack ▸ List.mem_cons_self) msg rfl).destination
    obtain ⟨w, stack, tr⟩ := m
    subst hstack
    refine ⟨j, hj, ?_⟩
    cases step_of_eq_some hs with
    | run hw he =>
      cases he
      simp only [CentralizedNetwork.passAlongMessage, hj]
      rfl

/-- Two ticks after node 0 pinged node 1 over a link that is too narrow: its ping was dropped, and waits to be sent once more. -/
theorem receivers_known_sample : ∃ (m : NetworkConfig 2) (msg : Message UInt32),
    m.trace.any (fun e => e.1 = .app 0 (.base (.attemptRetry msg.tag))) = true ∧ msg ∈ (m.state.applications 0).outqueue ∧
      msg.destination = 5 ∧ m.state.livesAt msg.destination := by
  obtain ⟨m, hr, hm⟩ := exists_run_of_follow (networkProgram .reference 2) (fun m l => nobodyLeaves m l && addsNew m l)
    (sampleNetwork 20)
    ((pingAfterTick 0 1).take 45 ++ [.enter .tick] ++ networkRuns 0 42 22 ++ [.enter .tick] ++ networkRuns 0 64 18)
    (fun m : NetworkConfig 2 => (m.state.applications 0).outqueue.any (fun msg => msg.destination = 5 &&
      m.trace.any (fun e => e.1 = .app 0 (.base (.attemptRetry msg.tag))))) (by decide +kernel)
  obtain ⟨msg, hmsg, hsent⟩ := List.any_eq_true.1 hm
  obtain ⟨hdest, hretry⟩ := Bool.and_eq_true_iff.1 hsent
  exact ⟨m, msg, hretry, hmsg, of_decide_eq_true hdest,
    ((receivers_known Ctx.reference_decodes hr).2.1 0 msg (mem_messages.2 (Or.inr (Or.inl hmsg)))).2⟩

end Dhtsim
