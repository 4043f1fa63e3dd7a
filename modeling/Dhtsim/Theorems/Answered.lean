import Dhtsim.Lemmas.Epochs
import Dhtsim.Lemmas.Known
import Dhtsim.Lemmas.Retries
import Dhtsim.Lemmas.Underway
import Dhtsim.Model.Outside

/-!
# No live peer fails

A node gives a ping or a `FIND_NODES` request two ticks. Among inhabitants that is enough, but only just: a request that is sent
between two ticks is stamped with the epoch before, and its reply may come in the very tick in which it becomes overdue. It is
then handled first, as a node drains its inbound queue before it looks for overdue records (`Pursued`).
-/

namespace Dhtsim

open CallMachine KademliaNode

/-- The call sends a request again, or runs a failure callback of one. -/
def NetworkCall.givesUp {N : Nat} : NetworkCall N → Bool
  | .app _ (.base (.attemptRetry _)) => true
  | .app _ (.base (.callback false _ _)) => true
  | _ => false

/-- `Time` does not wrap in the call: not where the epoch is counted, and not where a request gets its timeout. -/
def NetworkCall.keepsTime {N : Nat} (w : CentralizedNetwork N) : NetworkCall N → Bool
  | .endTick => decide (w.epoch.toNat + 1 < 2 ^ 64)
  | .app i (.base (.send _ _ _ timeout)) => decide ((w.applications i).epoch.toNat + timeout.toNat < 2 ^ 64)
  | _ => true

/-- `Time` does not wrap in the step. -/
def keepsTime {N : Nat} (m : NetworkConfig N) (l : NetworkLabel N) : Bool :=
  match l, m.stack with
  | .run _, x :: _ => x.keepsTime m.state
  | _, _ => true

/-- The steps among inhabitants, as long as `Time` does not wrap: no node dies or is removed, no inhabitant is added again, no limit of
a queue or of a link is hit, the tags that are drawn are not zero and differ, and whoever asks something of a node asks an inhabitant
and names inhabitants. -/
def calm {N : Nat} (m : NetworkConfig N) (l : NetworkLabel N) : Bool := amongInhabitants m l && addsNew m l && keepsTime m l

namespace AnsweredAux

variable {N : Nat} {Γ : Ctx} {config : Fin N → Config} {key : Fin N → KademliaKey} {offset : Fin N → Time} {limit : UInt32}
  {ch : NetworkChoice} {w w' : CentralizedNetwork N} {μ μ' : Moment N} {ran calls : List (NetworkCall N)}
  {x : NetworkCall N} {i j : Fin N} {c : Call} {m m' : NetworkConfig N} {l : NetworkLabel N} {msg : Message UInt32} {tag : Tag}
  {r : SentMessage UInt32 SendFn}

/-! ## Requests and answers -/

/-- The message asks for an answer, and is long enough to get one. -/
inductive Asks (Γ : Ctx) (msg : Message UInt32) : Prop where
  | ping (ht : MessageType.ofCode msg.type = some .ping) (hp : (readPing Γ msg).pingOrPong = true)
  | findNodes (ht : MessageType.ofCode msg.type = some .findNodes) (hlen : 1 + keyLen + 4 ≤ msg.data.length)
      (hreq : ∀ ch, (readFindNodes Γ ch msg).request = true)

theorem asks_of_isRequest (hΓ : Γ.Decodes) (hlong : ∀ fm, 1 + keyLen + 4 ≤ (Γ.findNodes.write fm).length) {k : KademliaKey}
    {cb : CallbackSet SendFn} (h : IsRequest Γ k msg cb) : Asks Γ msg := by
  cases h with
  | ping cb htype hdata =>
    refine .ping (by rw [htype]; rfl) ?_
    rw [readPing, hdata, hΓ.ping]
    rfl
  | find t top fv htype hdest hdata =>
    refine .findNodes (by rw [htype]; rfl) (by rw [hdata]; exact hlong _) (fun ch => ?_)
    rw [readFindNodes, hdata, hΓ.findNodes]

/-- The calls in which a node handles the message and answers it. -/
def HandlesRequest (msg : Message UInt32) (c : Call) : Prop :=
  c = .base (.handleMessage msg) ∨ c = .dispatch msg ∨ (∃ fm, c = .handleFindNodes msg fm ∧ fm.request = true) ∨
    ∃ resp mr t, c = .base (.send resp .empty mr t) ∧ resp.tag = msg.tag ∧ resp.destination = msg.originator

/-- A node that handles a request goes on to its answer. -/
theorem handlesRequest_exec (h : HandlesRequest msg c) (ha : Asks Γ msg) {ch : Choice} {n : KademliaNode}
    {q : KademliaNode × List Call} (he : exec Γ ch c n = some q) (hsend : ∀ resp mr t, c ≠ .base (.send resp .empty mr t)) :
    ∃ c' ∈ q.2, HandlesRequest msg c' := by
  rcases h with rfl | rfl | ⟨fm, rfl, hreq⟩ | ⟨resp, mr, t, rfl, -⟩
  · cases he
    exact ⟨.dispatch msg, List.mem_cons_of_mem _ List.mem_cons_self, Or.inr (Or.inl rfl)⟩
  · cases he
    cases ha with
    | ping ht hp =>
      refine ⟨.base (.send (n.pongTo Γ msg) .empty 16 0), ?_, Or.inr (Or.inr (Or.inr ⟨_, _, _, rfl, rfl, rfl⟩))⟩
      have hp : (Γ.ping.read msg.data (PingMessage.ping KademliaKey.zero)).pingOrPong = true := hp
      simp only [dispatch, ht, hp, if_true]
      exact List.mem_cons_of_mem _ (List.mem_singleton_self _)
    | findNodes ht hlen hreq =>
      refine ⟨.handleFindNodes msg (readFindNodes Γ ch msg), ?_, Or.inr (Or.inr (Or.inl ⟨_, rfl, hreq ch⟩))⟩
      simp only [dispatch, ht, if_neg (not_lt.2 hlen)]
      exact List.mem_cons_of_mem _ (List.mem_singleton_self _)
  · cases he
    refine ⟨.base (.send (n.findNodesReplyTo Γ msg fm) .empty 16 0), ?_, Or.inr (Or.inr (Or.inr ⟨_, _, _, rfl, rfl, rfl⟩))⟩
    simp only [handleFindNodes, hreq, if_true]
    exact List.mem_singleton_self _
  · exact absurd rfl (hsend resp mr t)

/-! ## What gives up -/

/-- A call of live nodes gives up only on a record that is overdue. -/
theorem givesUp_of_exec {cs : List (NetworkCall N)} (he : CentralizedNetwork.exec Γ ch x w = some (w', cs))
    (hlive : ∀ i, (w.applications i).dead = false) (hnet : ∀ i c, x = .call i c → c.fromNetwork = true)
    (hdue : ∀ i after, x = .app i (.base (.overdue after)) → ∀ tag r, (w.applications i).callbacks.find? tag = some r →
      (w.applications i).epoch < r.nextSend) : ∀ y ∈ cs, y.givesUp = false := by
  by_cases hx : ∃ i after, x = .app i (.base (.overdue after))
  · obtain ⟨i, after, rfl⟩ := hx
    obtain ⟨q, hexec, heq⟩ := CentralizedNetwork.exec_app he
    obtain ⟨rfl, rfl⟩ := Prod.mk.inj heq
    cases hexec
    intro y hy
    simp only [execBase, BaseApplication.exec] at hy
    split at hy
    · cases hy
    · rename_i t r hn
      have hlt := hdue i after rfl t r (SortedMap.find?_eq_some_iff.2 (SortedMap.mem_of_next hn))
      rw [if_neg (UInt64.not_le.2 hlt)] at hy
      rw [List.mem_singleton.1 hy]
      rfl
  · intro y hy
    cases CentralizedNetwork.exec_makes he y hy with
    | @inside i c z hz =>
      cases hz with
      | retry | giveUp => exact absurd ⟨i, _, rfl⟩ hx
      | sendDead hd =>
        rw [hlive i] at hd
        cases hd
      | _ => rfl
    | @handOn i c =>
      have hc := hnet i c rfl
      cases c with
      | base b =>
        cases b with
        | attemptRetry | callback => cases hc
        | _ => rfl
      | _ => rfl
    | _ => rfl

theorem givesUp_of_enters (h : x.isEvent = true ∨ x.isReentry = true) : x.givesUp = false := by
  cases x with
  | app i c =>
    cases c with
    | base b =>
      cases b with
      | attemptRetry | callback => rcases h with h | h <;> cases h
      | _ => rfl
    | _ => rfl
  | _ => rfl

/-! ## A request on its way, and its answer -/

/-- The tick by which the receiver of a request handles it. -/
def answerBy (r : SentMessage UInt32 SendFn) : Nat :=
  if r.message.originator < r.message.destination then r.nextSend.toNat - 1 else r.nextSend.toNat

/-- What a record of node `i` is of: a request that the node sent to an inhabitant, who will answer it. -/
structure Expects (Γ : Ctx) (w : CentralizedNetwork N) (i : Fin N) (tag : Tag) (r : SentMessage UInt32 SendFn) : Prop where
  tag_ne : tag ≠ 0
  tag : r.message.tag = tag
  asks : Asks Γ r.message
  originator : w.inhabitants.find? r.message.originator = some i
  destination : w.livesAt r.message.destination
  due : 0 < r.nextSend.toNat

/-- Where the answer to a request is, so that the record is erased before it is overdue: the request is on its way, it is
handled in this tick, the answer is on its way, or the node handles it and is about to erase the record. -/
inductive Pursued (w : CentralizedNetwork N) (μ : Moment N) (i : Fin N) (tag : Tag) (r : SentMessage UInt32 SendFn) : Prop where
  | asking {j : Fin N} (hj : w.inhabitants.find? r.message.destination = some j)
      (h : Underway w μ r.message i j (r.nextSend.toNat - 1) (answerBy r))
  | answering {j : Fin N} {c : Call} (hj : w.inhabitants.find? r.message.destination = some j) (hne : j ≠ i)
      (hc : HandlesRequest r.message c) (hmem : .app j c ∈ μ.calls) (hflush : Awaits (Flushes j) j w μ)
      (hby : w.epoch.toNat ≤ answerBy r)
  | replying {j : Fin N} {resp : Message UInt32} (hj : w.inhabitants.find? r.message.destination = some j) (hne : j ≠ i)
      (htag : resp.tag = tag) (hdest : resp.destination = r.message.originator)
      (h : Underway w μ resp j i (answerBy r) r.nextSend.toNat)
  | resolving {c : Call} {resp : Message UInt32} (hc : c = .base (.handleMessage resp) ∨ c = .base (.receive resp))
      (htag : resp.tag = tag) (hmem : .app i c ∈ μ.calls)
  | erasing {above below : List (NetworkCall N)} (hcalls : μ.calls = above ++ .app i (.base (.erase tag)) :: below)
      (hdrain : .app i (.base .drain) ∈ below)

theorem answerBy_le : answerBy r ≤ r.nextSend.toNat := by
  unfold answerBy
  split_ifs <;> omega

/-- What is known of the network while a request is pursued. -/
structure Orderly (w : CentralizedNetwork N) (μ : Moment N) : Prop where
  fits : μ.Fits w
  ticks : NodeTick w μ.calls
  live : ∀ i, (w.applications i).dead = false
  unique : ∀ i a b, w.inhabitants.find? a = some i → w.inhabitants.find? b = some i → a = b

/-- The node that sent a request handles the answer. -/
theorem pursued_of_handleMessage {resp : Message UInt32} (htag : resp.tag = tag)
    (hmem : .app i (.base (.handleMessage resp)) ∈ μ.calls) : Pursued w μ i tag r :=
  .resolving (Or.inl rfl) htag hmem

/-- A node that handles the answer finds the record, runs its callbacks and erases it before it handles another message. -/
theorem resolving_proceeds {resp : Message UInt32} (hc : c = .base (.handleMessage resp) ∨ c = .base (.receive resp))
    (htag : resp.tag = tag) (hmem : .app i c ∈ μ.calls) (hrec : (w.applications i).callbacks.find? tag = some r)
    (hg : Proceeds Γ ch w μ ran w' μ') (htick : NodeTick w μ.calls) : Pursued w' μ' i tag r := by
  have hwait : NetworkCall.isUserCode (.app i c) = false := by
    rcases hc with rfl | rfl <;> rfl
  rcases hg.call hmem hwait with hstays | ⟨rest, cs, hcalls, -, he, hcalls'⟩
  · exact .resolving hc htag hstays
  · obtain ⟨q, hexec, heq⟩ := CentralizedNetwork.exec_app he
    obtain ⟨-, rfl⟩ := Prod.mk.inj heq
    rcases hc with rfl | rfl
    · cases hexec
      refine .resolving (c := .base (.receive resp)) (Or.inr rfl) htag ?_
      rw [hcalls']
      exact List.mem_cons_self
    · rw [hcalls] at htick
      obtain ⟨-, -, hunder⟩ := htick.of_inbound rfl
      have hexec := Option.some.inj hexec
      rcases receive_cases Γ ch.toChoice resp (w.applications i) with ⟨hnone, -⟩ | ⟨r', -, hcs⟩
      · rw [htag, hrec] at hnone
        cases hnone
      · rw [hcs] at hexec
        subst hexec
        have hdrain : .app i (.base .drain) ∈ rest := hunder _ (by simp [Loop.under])
        have heq : μ'.calls = (r'.callback.successFns.map (fun fn => Call.base (.callback true fn resp))).map
            (NetworkCall.app i) ++ .app i (.base (.erase tag)) :: rest := by
          rw [hcalls', List.map_append, List.append_assoc, htag]
          rfl
        exact .erasing heq hdrain

/-- As long as the record is there, it is about to be erased. -/
theorem erasing_proceeds {above below : List (NetworkCall N)}
    (hcalls : μ.calls = above ++ .app i (.base (.erase tag)) :: below) (hdrain : .app i (.base .drain) ∈ below)
    (hrec' : (w'.applications i).callbacks.find? tag = some r) (hg : Proceeds Γ ch w μ ran w' μ') : Pursued w' μ' i tag r := by
  rcases hg.waiting with ⟨new, hnew⟩ | ⟨x, rest, cs, htop, -, he, hcalls'⟩ | ⟨x, rest, htop, hx, -, -, hcalls'⟩
  · rw [hcalls, ← List.append_assoc] at hnew
    exact .erasing hnew hdrain
  · cases above with
    | nil =>
      obtain ⟨rfl, rfl⟩ := List.cons.inj (htop.symm.trans hcalls)
      obtain ⟨q, hexec, heq⟩ := CentralizedNetwork.exec_app he
      obtain ⟨rfl, -⟩ := Prod.mk.inj heq
      cases hexec
      rw [CentralizedNetwork.applications_setApplication_self] at hrec'
      have hnone : ((w.applications i).callbacks.erase tag).find? tag = none := SortedMap.find?_erase_self ..
      rw [show ((w.applications i).callbacks.erase tag).find? tag = some r from hrec'] at hnone
      cases hnone
    | cons y above =>
      obtain ⟨rfl, rfl⟩ := List.cons.inj (htop.symm.trans hcalls)
      have heq : μ'.calls = (cs ++ above) ++ .app i (.base (.erase tag)) :: below := by
        rw [hcalls', List.append_assoc]
        rfl
      exact .erasing heq hdrain
  · cases above with
    | nil =>
      obtain ⟨rfl, rfl⟩ := List.cons.inj (htop.symm.trans hcalls)
      cases hx
    | cons y above =>
      obtain ⟨rfl, rfl⟩ := List.cons.inj (htop.symm.trans hcalls)
      exact .erasing hcalls' hdrain

/-- A node that handles a request goes on to send the answer. -/
theorem answering_proceeds (he : Expects Γ w i tag r) (hj : w.inhabitants.find? r.message.destination = some j) (hne : j ≠ i)
    (hc : HandlesRequest r.message c) (hmem : .app j c ∈ μ.calls) (hflush : Awaits (Flushes j) j w μ)
    (hby : w.epoch.toNat ≤ answerBy r) (hg : Proceeds Γ ch w μ ran w' μ') (hμ : μ ≠ .finish) (ho : Orderly w μ)
    (hok : Unhindered w ran) : Pursued w' μ' i tag r := by
  have hj' := hg.find? ho.ticks hok.ne_remove hj
  have hflush' := flushes_proceeds hflush hg ho.ticks hok (Or.inl (List.ne_nil_of_mem hmem))
  have hby' : w'.epoch.toNat ≤ answerBy r := by
    rw [hg.epoch hμ]
    exact hby
  have hwait : NetworkCall.isUserCode (.app j c) = false := by
    rcases hc with rfl | rfl | ⟨fm, rfl, -⟩ | ⟨resp, mr, t, rfl, -⟩ <;> rfl
  rcases hg.call hmem hwait with hstays | ⟨rest, cs, -, rfl, hexec, hcalls'⟩
  · exact .answering hj' hne hc hstays hflush' hby'
  · by_cases hsend : ∃ resp mr t, c = .base (.send resp .empty mr t)
    · obtain ⟨resp, mr, t, rfl⟩ := hsend
      rcases hc with hc | hc | ⟨fm, hc, -⟩ | ⟨resp', mr', t', hc, htag, hdest⟩
      · cases hc
      · cases hc
      · cases hc
      · cases hc
        have hroom : (w.applications j).outqueue.length < outqueueLimit := of_decide_eq_true (hok _ List.mem_cons_self)
        have hout := outqueue_send hexec (ho.live j) hroom
        have htag : resp.tag = tag := htag.trans he.tag
        rw [tagged_of_ne (htag ▸ he.tag_ne)] at hout
        exact .replying hj' hne htag hdest (.queued hout (Or.inr ⟨hflush', hby'⟩))
    · obtain ⟨q, hq, heq⟩ := CentralizedNetwork.exec_app hexec
      obtain ⟨-, rfl⟩ := Prod.mk.inj heq
      obtain ⟨c', hc', hhandles⟩ := handlesRequest_exec hc he.asks hq (fun resp mr t h => hsend ⟨resp, mr, t, h⟩)
      refine .answering hj' hne hhandles ?_ hflush' hby'
      rw [hcalls']
      exact List.mem_append_left _ (List.mem_map_of_mem hc')

/-- A request is pursued in every step of a tick, and between two ticks. -/
theorem Pursued.proceeds (h : Pursued w μ i tag r) (he : Expects Γ w i tag r) (hg : Proceeds Γ ch w μ ran w' μ')
    (hμ : μ ≠ .finish) (ho : Orderly w μ) (hfits' : μ'.Fits w') (hok : Unhindered w ran)
    (hrec : (w.applications i).callbacks.find? tag = some r) (hrec' : (w'.applications i).callbacks.find? tag = some r) :
    Pursued w' μ' i tag r := by
  cases h with
  | @asking j hj h =>
    have hj' := hg.find? ho.ticks hok.ne_remove hj
    have hfd : ∀ a, w.inhabitants.find? a = some i →
        r.nextSend.toNat - 1 < answerBy r ∨ (r.nextSend.toNat - 1 ≤ answerBy r ∧ a < r.message.destination) := by
      intro a ha
      obtain rfl := ho.unique _ _ _ ha he.originator
      have hdue := he.due
      unfold answerBy
      split_ifs with hlt
      · exact Or.inr ⟨Nat.le_refl _, hlt⟩
      · exact Or.inl (by omega)
    rcases h.proceeds hg hμ ho.fits ho.ticks ho.live hok hj hfd with h | ⟨hmem, hby⟩
    · exact .asking hj' h
    · by_cases hij : j = i
      · subst hij
        exact pursued_of_handleMessage he.tag hmem
      · exact .answering hj' hij (Or.inl rfl) hmem (flushes_of_own hfits' ⟨_, hj'⟩ hmem rfl) hby
  | answering hj hne hc hmem hflush hby => exact answering_proceeds he hj hne hc hmem hflush hby hg hμ ho hok
  | @replying j resp hj hne htag hdest h =>
    have hj' := hg.find? ho.ticks hok.ne_remove hj
    have hto : w.inhabitants.find? resp.destination = some i := hdest ▸ he.originator
    have hfd : ∀ a, w.inhabitants.find? a = some j →
        answerBy r < r.nextSend.toNat ∨ (answerBy r ≤ r.nextSend.toNat ∧ a < resp.destination) := by
      intro a ha
      obtain rfl := ho.unique _ _ _ ha hj
      have hdue := he.due
      unfold answerBy
      split_ifs with hlt
      · exact Or.inl (by omega)
      · refine Or.inr ⟨Nat.le_refl _, ?_⟩
        rw [hdest]
        refine lt_of_le_of_ne (not_lt.1 hlt) (fun heq => hne ?_)
        rw [heq, he.originator] at hj
        exact (Option.some.inj hj).symm
    rcases h.proceeds hg hμ ho.fits ho.ticks ho.live hok hto hfd with h | ⟨hmem, -⟩
    · exact .replying hj' hne htag hdest h
    · exact pursued_of_handleMessage htag hmem
  | resolving hc htag hmem => exact resolving_proceeds hc htag hmem hrec hg ho.ticks
  | erasing hcalls hdrain => exact erasing_proceeds hcalls hdrain hrec' hg

/-- A request that is on its way at the end of a tick is pursued in the next one. -/
theorem Pursued.finish (h : Pursued w .finish i tag r) (he : Expects Γ w i tag r) (hroom : w.epoch.toNat + 1 < 2 ^ 64) :
    Pursued { w with epoch := w.epoch + 1 } (.between []) i tag r := by
  cases h with
  | asking hj h => exact .asking hj (h.finish ⟨_, he.originator⟩ ⟨_, hj⟩ hroom)
  | replying hj hne htag hdest h => exact .replying hj hne htag hdest (h.finish ⟨_, hj⟩ ⟨_, he.originator⟩ hroom)
  | answering hj hne hc hmem => cases hmem
  | resolving hc htag hmem => cases hmem
  | @erasing above below hcalls hdrain => cases above <;> cases hcalls

/-- In the turn of another node whose turn comes after its own, a node has nothing to flush. -/
theorem lt_of_flushes {a b : UInt32} (h : Awaits (Flushes j) j w (.ticking a i calls)) (hne : j ≠ i)
    (hb : w.inhabitants.find? b = some j) (hunique : ∀ i a b, w.inhabitants.find? a = some i →
      w.inhabitants.find? b = some i → a = b) : a < b := by
  obtain ⟨-, hidle | ⟨b', hb', hbefore⟩ | ⟨b', ⟨calls', hat⟩ | ⟨total, hat⟩ | ⟨total, x, hat⟩⟩⟩ := h
  · exact absurd trivial hidle
  · obtain rfl := hunique _ _ _ hb hb'
    exact hbefore
  · cases hat
    exact absurd rfl hne
  · cases hat
  · cases hat

/-- When a node looks for overdue records, a request that is pursued is not overdue. -/
theorem Pursued.lt_nextSend {rest : List (NetworkCall N)} {after : Option Tag} (h : Pursued w μ i tag r)
    (he : Expects Γ w i tag r) (ho : Orderly w μ) (hcalls : μ.calls = .app i (.base (.overdue after)) :: rest)
    (hin : μ.within) : w.epoch.toNat < r.nextSend.toNat := by
  have hdue := he.due
  have hle : answerBy r ≤ r.nextSend.toNat := answerBy_le
  have hearly : r.message.originator < r.message.destination → answerBy r < r.nextSend.toNat := by
    intro hlt
    unfold answerBy
    rw [if_pos hlt]
    omega
  cases μ with
  | between calls => exact absurd hin not_false
  | ticking a k calls =>
    obtain rfl : calls = .app i (.base (.overdue after)) :: rest := hcalls
    obtain rfl : i = k := turn_eq ho.fits List.mem_cons_self rfl
    obtain rfl : a = r.message.originator := ho.unique _ _ _ ho.fits.1 he.originator
    -- the node itself drains its queue no more in this tick
    have hrest : ∀ x ∈ NetworkCall.app i (.base (.overdue after)) :: rest,
        ∃ k c', x = .app k c' ∧ drains c' = false ∧ c'.part ≠ .body .inbound := by
      intro x hx
      rcases List.mem_cons.1 hx with rfl | hx
      · exact ⟨_, _, rfl, rfl, fun h => by cases h⟩
      · exact (NodeTick.of_records ho.ticks rfl).2 x hx
    have hdrained : ∀ {k}, ¬ Leads drains k (.ticking r.message.originator i (.app i (.base (.overdue after)) :: rest)) := by
      rintro k ⟨_, _, hat, c', hc', hmem⟩
      cases hat
      rcases hmem with hmem | hmem
      · obtain ⟨_, _, heq, -⟩ := hrest _ hmem
        cases heq
      · obtain ⟨_, _, heq, hdrain, -⟩ := hrest _ hmem
        cases heq
        rw [hc'] at hdrain
        cases hdrain
    cases h with
    | @asking j hj h =>
      cases h with
      | queued hmem hby =>
        have hby := hby.le
        omega
      | passing hat => cases hat
      | arrived hmem hby =>
        rcases hby with hby | ⟨⟨-, hidle | ⟨b, hb, hbefore⟩ | hleads⟩, hby⟩
        · omega
        · exact absurd trivial hidle
        · obtain rfl := ho.unique _ _ _ hj hb
          exact lt_of_le_of_lt hby (hearly hbefore)
        · exact absurd hleads hdrained
    | answering hj hne hc hmem hflush hby =>
      exact lt_of_le_of_lt hby (hearly (lt_of_flushes hflush hne hj ho.unique))
    | replying hj hne htag hdest h =>
      cases h with
      | queued hmem hby =>
        rcases hby with hby | ⟨hflush, hby⟩
        · omega
        · exact lt_of_le_of_lt hby (hearly (lt_of_flushes hflush hne hj ho.unique))
      | passing hat => cases hat
      | arrived hmem hby =>
        rcases hby with hby | ⟨⟨-, hidle | ⟨b, hb, hbefore⟩ | hleads⟩, hby⟩
        · exact hby
        · exact absurd trivial hidle
        · obtain rfl := ho.unique _ _ _ hb he.originator
          exact absurd hbefore (lt_irrefl _)
        · exact absurd hleads hdrained
    | resolving hc htag hmem =>
      obtain ⟨_, _, heq, -, hpart⟩ := hrest _ hmem
      cases heq
      rcases hc with rfl | rfl <;> exact absurd rfl hpart
    | @erasing above below heq hdrain =>
      have hmem : .app i (.base .drain) ∈ NetworkCall.app i (.base (.overdue after)) :: rest := by
        rw [show NetworkCall.app i (.base (.overdue after)) :: rest = _ from heq]
        exact List.mem_append_right _ (List.mem_cons_of_mem _ hdrain)
      obtain ⟨_, _, heq, hdrain, -⟩ := hrest _ hmem
      cases heq
      cases hdrain
  | _ => cases hcalls

/-! ## The runs -/

/-- Where the network is in a run among inhabitants: the records are those of requests that are pursued, and nothing gives up.
-/
structure Situation (Γ : Ctx) (m : NetworkConfig N) (μ : Moment N) : Prop where
  stack : m.stack = μ.stack
  orderly : Orderly m.state μ
  keeping : ∀ i, m.state.inhabited i → Keeping i m.state μ
  joins : JoinsIdle m.state μ
  records : ∀ i tag r, (m.state.applications i).callbacks.find? tag = some r →
    Expects Γ m.state i tag r ∧ Pursued m.state μ i tag r
  never : ∀ x ∈ m.stack, x.givesUp = false
  past : ∀ e ∈ m.trace, e.1.givesUp = false

/-- A record after a step was there before, or is that of a request that the step sent. -/
theorem record_proceeds (hg : Proceeds Γ ch w μ ran w' μ') (hnever : ∀ x ∈ ran, x.givesUp = false)
    (hrec : (w'.applications i).callbacks.find? tag = some r) : (w.applications i).callbacks.find? tag = some r ∨
      ∃ msg cb mr t, ran = [.app i (.base (.send msg cb mr t))] ∧ cb.isEmpty = false ∧ tag = (msg.tagged ch.tag).tag ∧
        r = SentMessage.new (msg.tagged ch.tag) cb (w.applications i).epoch (if t = 0 then defaultTimeout else t) mr := by
  rcases hg.node i with ⟨c, q, rfl, hq, heq⟩ | ⟨a, out, heq⟩
  · rw [heq] at hrec
    rcases exec_callbacks hq with hsame | ⟨msg, cb, mr, t, rfl, -, hcb, hnew⟩ | ⟨tag', rfl, herased⟩ | ⟨tag', r', rfl, -⟩
    · exact Or.inl (hsame ▸ hrec)
    · rw [hnew, SortedMap.find?_insert] at hrec
      split at hrec
      · rename_i htag
        cases hrec
        exact Or.inr ⟨msg, cb, mr, t, rfl, hcb, htag, rfl⟩
      · exact Or.inl hrec
    · rw [herased, SortedMap.find?_erase] at hrec
      split at hrec
      · cases hrec
      · exact Or.inl hrec
    · cases hnever _ List.mem_cons_self
  · rw [heq] at hrec
    exact Or.inl hrec

theorem Expects.proceeds (he : Expects Γ w i tag r) (hg : Proceeds Γ ch w μ ran w' μ') (htick : NodeTick w μ.calls)
    (hok : Unhindered w ran) : Expects Γ w' i tag r := by
  obtain ⟨j, hj⟩ := he.destination
  exact ⟨he.tag_ne, he.tag, he.asks, hg.find? htick hok.ne_remove he.originator, ⟨j, hg.find? htick hok.ne_remove hj⟩, he.due⟩

/-- A node that sends a request is at the epoch of the network, or one behind and its turn is to come. -/
theorem keeping_of_send (h : Keeping i w μ) (ho : Orderly w μ) {cb : CallbackSet SendFn} {mr : UInt32} {t : UInt64}
    (hcalls : μ.calls = .app i (.base (.send msg cb mr t)) :: calls) :
    (w.applications i).epoch = w.epoch ∨
      ((w.applications i).epoch.toNat + 1 = w.epoch.toNat ∧ Awaits (Flushes i) i w μ) := by
  have hpends : ¬ Pends i μ := by
    rintro ⟨c, hc, hmem⟩
    have htick := ho.ticks
    rw [hcalls] at htick hmem
    have hother : ∀ x ∈ NetworkCall.app i (.base (.send msg cb mr t)) :: calls,
        ∃ k c', x = .app k c' ∧ setsEpoch c' = false := by
      intro x hx
      rcases List.mem_cons.1 hx with rfl | hx
      · exact ⟨_, _, rfl, rfl⟩
      · exact htick.of_other rfl x hx
    rcases hmem with hmem | hmem
    · obtain ⟨_, _, heq, -⟩ := hother _ hmem
      cases heq
    · obtain ⟨_, _, heq, hset⟩ := hother _ hmem
      cases heq
      rw [hc] at hset
      cases hset
  rcases h with heq | h | ⟨heq, hi, hidle | hbefore | h⟩
  · exact Or.inl heq
  · exact absurd h hpends
  · exact Or.inr ⟨heq, hi, Or.inl hidle⟩
  · exact Or.inr ⟨heq, hi, Or.inr (Or.inl hbefore)⟩
  · exact absurd h hpends

/-- A request that was just sent is pursued. -/
theorem pursued_of_send (hkeep : Keeping i w μ) (ho : Orderly w μ) {cb : CallbackSet SendFn} {mr : UInt32} {t : UInt64}
    (hcalls : μ.calls = .app i (.base (.send msg cb mr t)) :: calls)
    (hg : Proceeds Γ ch w μ [.app i (.base (.send msg cb mr t))] w' μ')
    (hok : Unhindered w [.app i (.base (.send msg cb mr t))]) (hr : r.message = msg.tagged ch.tag)
    (hdest : w.livesAt r.message.destination) (hnext : r.nextSend.toNat = (w.applications i).epoch.toNat + 2) :
    Pursued w' μ' i tag r := by
  obtain ⟨j, hj⟩ := hdest
  obtain ⟨cs, hexec⟩ : ∃ cs, CentralizedNetwork.exec Γ ch (.app i (.base (.send msg cb mr t))) w = some (w', cs) := by
    rcases hg.exec with ⟨hnil, -⟩ | ⟨x, cs, hran, he⟩
    · cases hnil
    · cases hran
      exact ⟨cs, he⟩
  have hμ : μ ≠ .finish := by
    rintro rfl
    cases hcalls
  have hroom : (w.applications i).outqueue.length < outqueueLimit := of_decide_eq_true (hok _ List.mem_cons_self)
  have hout := outqueue_send hexec (ho.live i) hroom
  refine .asking (hg.find? ho.ticks hok.ne_remove hj) (.queued (hr ▸ hout) ?_)
  unfold DoneBy
  rw [hg.epoch hμ, hnext]
  rcases keeping_of_send hkeep ho hcalls with heq | ⟨heq, hflush⟩
  · rw [heq]
    exact Or.inl (by omega)
  · refine Or.inr ⟨flushes_proceeds hflush hg ho.ticks hok (Or.inl ?_), by omega⟩
    rw [hcalls]
    simp

/-- What a node records of a request that it sends to an inhabitant. -/
theorem expects_of_send (hΓ : Γ.Decodes) (hlong : ∀ fm, 1 + keyLen + 4 ≤ (Γ.findNodes.write fm).length)
    {ok : NetworkConfig N → NetworkLabel N → Prop} (hok : ∀ m l, ok m l → amongInhabitants m l = true ∧ addsNew m l = true)
    (hr : Run (networkProgram Γ N) ok (startNetwork config key offset limit) m) {cb : CallbackSet SendFn} {mr : UInt32}
    {t : UInt64} (hstack : m.stack = .app i (.base (.send msg cb mr t)) :: calls) (hl : amongInhabitants m (.run ch) = true)
    (hlive : (m.state.applications i).dead = false) (hcb : cb.isEmpty = false)
    (htime : (m.state.applications i).epoch.toNat + t.toNat < 2 ^ 64) {d : UInt64}
    (hnew : r = SentMessage.new (msg.tagged ch.tag) cb (m.state.applications i).epoch (if t = 0 then d else t) mr) :
    Expects Γ m.state i (msg.tagged ch.tag).tag r ∧ r.nextSend.toNat = (m.state.applications i).epoch.toNat + 2 := by
  have hleaves : ∀ m l, ok m l → nobodyLeaves m l = true ∧ addsNew m l = true :=
    fun m l hl => (hok m l hl).imp_left nobodyLeaves_of_amongInhabitants
  have hR := residentState_of_run hleaves hr
  have hK := knownState_of_run hΓ hleaves hr
  have hmem : .app i (.base (.send msg cb mr t)) ∈ m.stack := hstack ▸ List.mem_cons_self
  obtain ⟨horig, rfl⟩ := (hK.calls i _ hmem).sends msg cb mr t rfl hcb
  have hknown := hK.carried _ hmem msg rfl
  obtain ⟨hreq, ht⟩ : IsRequest Γ (key i) msg cb ∧ msg.tag = 0 := by
    refine ((fromRequests_of_run (run_node hr i)).2 _ (mem_stack_nodeConfig hmem)).resolve_left ?_
    rintro rfl
    cases hcb
  have hne : ch.tag ≠ 0 := by
    obtain ⟨w, stack, tr⟩ := m
    obtain rfl : stack = .app i (.base (.send msg cb mr 2)) :: calls := hstack
    exact (fresh_tag (freshNetworkTags_of_amongInhabitants hl) ht hlive).1
  have htagged : msg.tagged ch.tag = { msg with tag := ch.tag } := if_pos ht
  have hnext : r.nextSend.toNat = (m.state.applications i).epoch.toNat + 2 := by
    rw [hnew]
    show ((m.state.applications i).epoch + 2).toNat = _
    rw [UInt64.toNat_add]
    exact Nat.mod_eq_of_lt htime
  have hmsg : r.message = msg.tagged ch.tag := by rw [hnew]; rfl
  refine ⟨⟨?_, by rw [hmsg], ?_, ?_, ?_, by omega⟩, hnext⟩
  · rw [htagged]
    exact hne
  · rw [hmsg]
    exact asks_of_isRequest hΓ hlong (hreq.tagged ch.tag)
  · rw [hmsg, htagged]
    show m.state.inhabitants.find? msg.originator = some i
    rw [horig]
    exact hR.resides i (hR.addresses.subject _ hmem i rfl)
  · rw [hmsg, htagged]
    exact hknown.destination

theorem amongInhabitants_of_calm (h : calm m l = true) : amongInhabitants m l = true ∧ addsNew m l = true := by
  unfold calm at h
  exact Bool.and_eq_true_iff.1 (Bool.and_eq_true_iff.1 h).1

theorem nobodyLeaves_of_calm (h : calm m l = true) : nobodyLeaves m l = true ∧ addsNew m l = true :=
  (amongInhabitants_of_calm h).imp_left nobodyLeaves_of_amongInhabitants

/-- The call that a step runs was waiting. -/
theorem mem_stack_of_ran (hs : Step (networkProgram Γ N) m l m') (htrace : m'.trace = ran.map (fun x => (x, ch)) ++ m.trace) :
    ∀ x ∈ ran, x ∈ m.stack := by
  refine forall_ran hs htrace (fun x rest hl hstack => ?_)
  rw [hstack]
  exact List.mem_cons_self

/-- The conditions on a step are those on the call that it runs. -/
theorem calm_ran (hok : calm m l = true) (hs : Step (networkProgram Γ N) m l m')
    (htrace : m'.trace = ran.map (fun x => (x, ch)) ++ m.trace) :
    Unhindered m.state ran ∧ ∀ x ∈ ran, x.keepsTime m.state = true := by
  obtain ⟨w, stack, tr⟩ := m
  constructor
  · refine forall_ran hs htrace (fun x rest hl hstack => ?_)
    subst hl hstack
    exact unhindered_of_amongInhabitants (amongInhabitants_of_calm hok).1
  · refine forall_ran hs htrace (fun x rest hl hstack => ?_)
    subst hl hstack
    exact (Bool.and_eq_true_iff.1 hok).2

/-- When a node looks for overdue records it finds none. -/
theorem Situation.lt_nextSend {after : Option Tag} {rest : List (NetworkCall N)} (h : Situation Γ m μ)
    (hcalls : μ.calls = .app i (.base (.overdue after)) :: rest)
    (hrec : (m.state.applications i).callbacks.find? tag = some r) : (m.state.applications i).epoch < r.nextSend := by
  by_cases hin : μ.within
  · obtain ⟨he, hp⟩ := h.records i tag r hrec
    have htick := h.orderly.ticks
    rw [hcalls] at htick
    rw [UInt64.lt_iff_toNat_lt, (NodeTick.of_records htick rfl).1 (h.orderly.live i)]
    exact hp.lt_nextSend he h.orderly hcalls hin
  · -- a node that joins has sent no request yet
    cases μ with
    | between calls =>
      obtain rfl : calls = .app i (.base (.overdue after)) :: rest := hcalls
      obtain ⟨⟨hidle, -⟩, -⟩ := h.joins _ rfl i _ rfl (Or.inr List.mem_cons_self)
      have hmem := SortedMap.find?_eq_some_iff.1 hrec
      rw [hidle] at hmem
      cases hmem
    | _ => exact absurd trivial hin

/-- A step makes no call that gives up. -/
theorem Situation.never_step {ok : NetworkConfig N → NetworkLabel N → Prop}
    (hr : Run (networkProgram Γ N) ok (startNetwork config key offset limit) m) (h : Situation Γ m μ)
    (hs : Step (networkProgram Γ N) m l m') (hg : Proceeds Γ ch m.state μ ran m'.state μ')
    (htrace : m'.trace = ran.map (fun x => (x, ch)) ++ m.trace) : ∀ x ∈ m'.stack, x.givesUp = false := by
  have hnever := h.never
  cases hs with
  | @run r x rest w tr w' cs hw he =>
    obtain rfl : ran = [x] := by
      rcases ran_cases (.run hw he) htrace with rfl | ⟨y, rest', -, hstack, rfl⟩
      · exact absurd (congrArg List.length htrace) (by simp)
      · rw [(List.cons.inj hstack).1]
    intro y hy
    rcases List.mem_append.1 hy with hy | hy
    · refine givesUp_of_exec he h.orderly.live (fun i c hc => ?_) (fun i after hx tag r hrec => ?_) y hy
      · exact (NetworkCall.layered_of_run hr).events i c (hc ▸ List.mem_cons_self)
      · subst hx
        obtain ⟨rest', cs', hcalls, -, -⟩ := hg.on_top (by simp) (by simp [putBack])
        exact h.lt_nextSend hcalls hrec
    · exact hnever y (List.mem_cons_of_mem _ hy)
  | event hc =>
    intro y hy
    rw [List.mem_singleton.1 hy]
    exact givesUp_of_enters (Or.inl hc)
  | reentry hf hc =>
    intro y hy
    rcases List.mem_cons.1 hy with rfl | hy
    · exact givesUp_of_enters (Or.inr hc)
    · exact hnever y hy
  | leave hf => exact fun y hy => hnever y (List.mem_cons_of_mem _ hy)

/-- The record of a request that is pursued is that of one that is pursued after the step, as is that of a request that the step
sends. -/
theorem Situation.records_step (hΓ : Γ.Decodes) (hlong : ∀ fm, 1 + keyLen + 4 ≤ (Γ.findNodes.write fm).length)
    (hr : Run (networkProgram Γ N) (fun m l => calm m l = true) (startNetwork config key offset limit) m)
    (h : Situation Γ m μ) (hok : calm m l = true) (hs : Step (networkProgram Γ N) m l m')
    (hg : Proceeds Γ ch m.state μ ran m'.state μ') (hfits' : μ'.Fits m'.state)
    (htrace : m'.trace = ran.map (fun x => (x, ch)) ++ m.trace)
    (hrec' : (m'.state.applications i).callbacks.find? tag = some r) :
    Expects Γ m'.state i tag r ∧ Pursued m'.state μ' i tag r := by
  obtain ⟨hun, hkeeps⟩ := calm_ran hok hs htrace
  have hnever : ∀ x ∈ ran, x.givesUp = false := fun x hx => h.never x (mem_stack_of_ran hs htrace x hx)
  rcases record_proceeds hg hnever hrec' with hrec | ⟨msg, cb, mr, t, rfl, hcb, rfl, hnew⟩
  · obtain ⟨he, hp⟩ := h.records i tag r hrec
    refine ⟨he.proceeds hg h.orderly.ticks hun, ?_⟩
    by_cases hfinish : μ = .finish
    · subst hfinish
      obtain ⟨rfl, hw', rfl⟩ := hg.finish
      rw [hw']
      exact hp.finish he (of_decide_eq_true (hkeeps _ List.mem_cons_self))
    · exact hp.proceeds he hg hfinish h.orderly hfits' hun hrec hrec'
  · have hput : ∀ msg', Call.base (.send msg cb mr t) ≠ putBack msg' := by
      rintro msg' heq
      cases heq
      cases hcb
    obtain ⟨rest, cs, hcalls, -, -⟩ := hg.on_top (by simp) hput
    obtain ⟨y, rest', rfl, hstack, heq⟩ := (ran_cases hs htrace).resolve_left (List.cons_ne_nil _ _)
    obtain rfl := (List.cons.inj heq).1
    obtain ⟨he, hnext⟩ := expects_of_send hΓ hlong (fun m l => amongInhabitants_of_calm) hr hstack
      (amongInhabitants_of_calm hok).1 (h.orderly.live i) hcb (of_decide_eq_true (hkeeps _ List.mem_cons_self)) hnew
    refine ⟨he.proceeds hg h.orderly.ticks hun, ?_⟩
    exact pursued_of_send (h.keeping i ⟨_, he.originator⟩) h.orderly hcalls hg hun (by rw [hnew]; rfl) he.destination hnext

theorem Situation.step (hΓ : Γ.Decodes) (hlong : ∀ fm, 1 + keyLen + 4 ≤ (Γ.findNodes.write fm).length)
    (hr : Run (networkProgram Γ N) (fun m l => calm m l = true) (startNetwork config key offset limit) m)
    (hR : ResidentState m) (hR' : ResidentState m')
    (h : Situation Γ m μ) (hok : calm m l = true) (hs : Step (networkProgram Γ N) m l m') :
    ∃ μ', Situation Γ m' μ' := by
  obtain ⟨ch, ran, μ', hstack', hfits', htrace, hg⟩ := proceeds_of_step h.orderly.fits h.stack hs
  obtain ⟨hun, hkeeps⟩ := calm_ran hok hs htrace
  refine ⟨μ', hstack', ⟨hfits', ?_, ?_, ?_⟩, fun i hi => ?_, ?_, fun i tag r hrec => ?_, ?_, ?_⟩
  · exact nodeTick_step hs h.stack hstack' htrace hg h.orderly.ticks
  · exact live_proceeds hg hun h.orderly.live
  · exact fun i a b ha hb => (ResidentsAux.address_of_find? hR' ha).symm.trans (ResidentsAux.address_of_find? hR' hb)
  · refine keeping_proceeds (h.keeping i) hg h.orderly.ticks h.orderly.live hun (fun hμ => ?_) hi
    subst hμ
    obtain ⟨rfl, -, -⟩ := hg.finish
    exact of_decide_eq_true (hkeeps _ List.mem_cons_self)
  · exact joinsIdle_step hs h.stack hstack' htrace hg hR h.orderly.live h.joins
  · exact h.records_step hΓ hlong hr hok hs hg hfits' htrace hrec
  · exact h.never_step hr hs hg htrace
  · intro e he
    rw [htrace] at he
    rcases List.mem_append.1 he with he | he
    · obtain ⟨x, hx, rfl⟩ := List.mem_map.1 he
      exact h.never x (mem_stack_of_ran hs htrace x hx)
    · exact h.past e he

theorem situation_of_run (hΓ : Γ.Decodes) (hlong : ∀ fm, 1 + keyLen + 4 ≤ (Γ.findNodes.write fm).length)
    (hr : Run (networkProgram Γ N) (fun m l => calm m l = true) (startNetwork config key offset limit) m) :
    ∃ μ, Situation Γ m μ := by
  refine hr.invariant (I := fun m => ∃ μ, Situation Γ m μ) ⟨.between [], rfl, ⟨?_, nodeTick_nil, fun i => rfl, ?_⟩, ?_, ?_, ?_,
    ?_, ?_⟩ ?_
  · exact fun x hx => absurd hx List.not_mem_nil
  · intro i a b ha
    cases ha
  · rintro i ⟨a, ha⟩
    cases ha
  · rintro calls hcalls i c - hmem
    cases hcalls
    rcases hmem with hmem | hmem <;> cases hmem
  · intro i tag r hrec
    cases hrec
  · exact fun x hx => absurd hx List.not_mem_nil
  · exact fun e he => absurd he List.not_mem_nil
  · rintro m l m' hr ⟨μ, h⟩ hok hs
    have hR : ResidentState m := residentState_of_run (fun m l => nobodyLeaves_of_calm) hr
    have hR' : ResidentState m' := residentState_of_run (fun m l => nobodyLeaves_of_calm) (hr.step hok hs.step_eq)
    exact h.step hΓ hlong hr hR hR' hok hs

end AnsweredAux

open AnsweredAux

/-- No live peer fails. In a run in which no node dies or is removed, each node is added once, no limit of a queue or of a link
is hit, `Time` does not wrap, the tags that are drawn are not zero and differ, and whoever asks something of a node asks an
inhabitant and names inhabitants: no request is sent again, and no failure callback of one runs. The encoded `FIND_NODES`
requests are as long as the keys in them and the other fields make them, so that their receiver answers them. -/
theorem answered_in_time {N : Nat} {Γ : Ctx} (hΓ : Γ.Decodes) (hlong : ∀ fm, 1 + keyLen + 4 ≤ (Γ.findNodes.write fm).length)
    {config : Fin N → Config} {key : Fin N → KademliaKey} {offset : Fin N → Time} {limit : UInt32} {m : NetworkConfig N}
    (h : Run (networkProgram Γ N) (fun m l => calm m l = true) (startNetwork config key offset limit) m) :
    ∀ e ∈ m.trace, e.1.givesUp = false := by
  obtain ⟨μ, hsit⟩ := situation_of_run hΓ hlong h
  exact hsit.past

/-- Two nodes join, and after a tick the one with the higher address pings the other. The ping is sent in the next tick. -/
def pingAfterTick {N : Nat} (i j : Fin N) : List (NetworkLabel N) :=
  [.enter (.add i)] ++ networkRuns 9 1 9 ++ [.enter (.add j)] ++ networkRuns 5 10 9 ++ [.enter .tick] ++ networkRuns 0 19 21 ++
    [.enter (.app i (.ping 5 .empty))] ++ networkRuns 0 40 2 ++ [.enter .tick] ++ networkRuns 0 42 26

/-- The answer comes in the tick in which the ping is overdue, and before that is looked for. -/
theorem answered_in_time_sample : ∃ m : NetworkConfig 2, m.state.epoch = 3 ∧
    (m.trace.any (fun e => decide (e.1 = .app 0 (.base (.erase 41))))) = true ∧ ∀ e ∈ m.trace, e.1.givesUp = false := by
  obtain ⟨m, hr, hm⟩ := exists_run_of_follow (networkProgram .reference 2) calm (sampleNetwork 1024)
    (pingAfterTick 0 1 ++ [.enter .tick] ++ networkRuns 0 68 38) (fun m : NetworkConfig 2 => decide (m.state.epoch = 3) &&
      m.trace.any (fun e => decide (e.1 = .app 0 (.base (.erase 41))))) (by decide +kernel)
  rw [Bool.and_eq_true, decide_eq_true_eq] at hm
  exact ⟨m, hm.1, hm.2, answered_in_time Ctx.reference_decodes Ctx.reference_findNodes_length hr⟩

/-- A network without inhabitants can be ticked any number of times. -/
theorem exists_run_of_ticks {N : Nat} (Γ : Ctx) (ch : NetworkChoice) (config : Fin N → Config) (key : Fin N → KademliaKey)
    (offset : Fin N → Time) (limit : UInt32) (n : Nat) : ∃ tr, (∀ j, tr.flatMap (runsIn j) = []) ∧
      Run (networkProgram Γ N) (fun m l => (amongInhabitants m l && addsNew m l) = true) (startNetwork config key offset limit)
        ⟨{ (startNetwork config key offset limit).state with epoch := UInt64.ofNat n }, [], tr⟩ := by
  induction n with
  | zero => exact ⟨[], fun j => rfl, .refl⟩
  | succ n ih =>
    obtain ⟨tr, htr, hr⟩ := ih
    have htick : follow (networkProgram Γ N) (fun m l => amongInhabitants m l && addsNew m l)
        ⟨{ (startNetwork config key offset limit).state with epoch := UInt64.ofNat n }, [], tr⟩
        [.enter .tick, .run ch, .run ch, .run ch] = some ⟨{ (startNetwork config key offset limit).state with
          epoch := UInt64.ofNat n + 1 }, [], [(.endTick, ch), (.inhabitant none, ch), (.tick, ch)] ++ tr⟩ := rfl
    refine ⟨[(.endTick, ch), (.inhabitant none, ch), (.tick, ch)] ++ tr, htr, ?_⟩
    rw [UInt64.ofNat_add]
    exact hr.trans (run_of_follow htick)

/-- What the network did without its nodes is no condition on what they do. -/
theorem amongInhabitants_append {N : Nat} {tr : NetworkTrace N} (h : ∀ j, tr.flatMap (runsIn j) = []) (m : NetworkConfig N)
    (l : NetworkLabel N) : amongInhabitants ⟨m.state, m.stack, m.trace ++ tr⟩ l = amongInhabitants m l := by
  simp only [amongInhabitants, freshNetworkTags, List.flatMap_append, h, List.append_nil]

/-- Both are needed, that no node is added twice and that `Time` does not wrap. A node whose turn comes after that of the node
it pings looks for overdue records once more when it is added again, before the answer comes. A request that is sent when `Time`
is about to wrap is overdue at once. -/
theorem answered_in_time_false :
    (∃ m : NetworkConfig 2, Run (networkProgram .reference 2) (fun m l => (amongInhabitants m l && keepsTime m l) = true)
      (sampleNetwork 1024) m ∧ ∃ e ∈ m.trace, e.1.givesUp = true) ∧
    ∃ m : NetworkConfig 2, Run (networkProgram .reference 2) (fun m l => (amongInhabitants m l && addsNew m l) = true)
      (sampleNetwork 1024) m ∧ ∃ e ∈ m.trace, e.1.givesUp = true := by
  constructor
  · obtain ⟨m, hr, hm⟩ := exists_run_of_follow (networkProgram .reference 2) (fun m l => amongInhabitants m l && keepsTime m l)
      (sampleNetwork 1024) (pingAfterTick 0 1 ++ [.enter (.add 0)] ++ networkRuns 8 68 11)
      (fun m : NetworkConfig 2 => m.trace.any (fun e => e.1.givesUp)) (by decide +kernel)
    exact ⟨m, hr, List.any_eq_true.1 hm⟩
  · obtain ⟨tr, htr, hticks⟩ := exists_run_of_ticks .reference ⟨⟨0, 0, false, 0⟩, []⟩ (fun _ : Fin 2 => ⟨20, 1000, 1000⟩)
      (fun i => .starting (if i.val = 0 then 0 else 128)) (fun _ => 700) 1024 (2 ^ 64 - 2)
    obtain ⟨m, hr, hm⟩ := exists_run_of_follow (networkProgram .reference 2) (fun m l => amongInhabitants m l && addsNew m l)
      ⟨{ (sampleNetwork 1024).state with epoch := UInt64.ofNat (2 ^ 64 - 2) }, [], []⟩
      ([.enter (.add 0)] ++ networkRuns 9 1 9 ++ [.enter (.add 1)] ++ networkRuns 5 10 9 ++
        [.enter (.app 0 (.ping 5 .empty))] ++ networkRuns 0 19 2 ++ [.enter .tick] ++ networkRuns 0 21 31)
      (fun m : NetworkConfig 2 => m.trace.any (fun e => e.1.givesUp)) (by decide +kernel)
    obtain ⟨e, he, hgives⟩ := List.any_eq_true.1 hm
    refine ⟨_, hticks.trans (hr.append_trace (fun m l hok => ?_)), e, List.mem_append_left _ he, hgives⟩
    rw [amongInhabitants_append htr]
    exact hok

end Dhtsim
