import Dhtsim.Lemmas.Asked
import Dhtsim.Theorems.Integrity
import Dhtsim.Theorems.Pace

/-!
# A value that somebody holds is found

Among inhabitants a lookup for a value hears of it from whoever holds it: the lookup asks everybody who is offered to it, the holder
handles the request while the lookup is underway, and his reply carries the value.
-/

namespace Dhtsim

open CallMachine KademliaNode

/-- The steps of a calm network in which whoever has the key `k` holds a value for the target as long as node `i` looks for it. -/
def heldMeanwhile {N : Nat} (i : Fin N) (t k : KademliaKey) (m : NetworkConfig N) (l : NetworkLabel N) : Bool :=
  calmNetwork m l && ((startedBy t (nodeConfig i m).trace).isEmpty ||
    (List.finRange N).all (fun j => decide ((m.state.applications j).key ≠ k) || (m.state.applications j).table.contains t))

namespace FoundAux

open AnsweredAux AskedAux PaceAux HonestyAux NetworkCall

variable {N : Nat} {Γ : Ctx} {config : Fin N → Config} {key : Fin N → KademliaKey} {offset : Fin N → Time} {limit : UInt32}
  {i j : Fin N} {t k : KademliaKey} {m m' : NetworkConfig N} {l : NetworkLabel N} {top : BucketEntry} {msg : Message UInt32}

theorem proper_of_heldMeanwhile (h : heldMeanwhile i t k m l = true) : freshNetworkTags m l = true ∧ properUse m l = true :=
  Bool.and_eq_true_iff.1 (Bool.and_eq_true_iff.1 (Bool.and_eq_true_iff.1 h).1).2

theorem calm_of_heldMeanwhile (h : heldMeanwhile i t k m l = true) : calm m l = true :=
  (Bool.and_eq_true_iff.1 (Bool.and_eq_true_iff.1 h).1).1

/-- While the lookup is underway, a node with the key has a value. -/
theorem held_of_heldMeanwhile (h : heldMeanwhile i t k m l = true) (hstarted : startedBy t (nodeConfig i m).trace ≠ [])
    (hkey : (m.state.applications j).key = k) : ∃ e, (m.state.applications j).table.find? t = some e := by
  have hor := (Bool.and_eq_true_iff.1 h).2
  rcases Bool.or_eq_true_iff.1 hor with hnil | hall
  · exact absurd (List.isEmpty_iff.1 hnil) hstarted
  · have hj := List.all_eq_true.1 hall j (List.mem_finRange j)
    rcases Bool.or_eq_true_iff.1 hj with hne | hhas
    · exact absurd hkey (of_decide_eq_true hne)
    · exact Option.isSome_iff_exists.1 hhas

/-- Whoever has a value replies with it. -/
theorem reply_with_value {n : KademliaNode} {fm : FindNodesMessage} {e : TableEntry} (he : n.table.find? fm.target = some e)
    (hfv : fm.findValue = true) : (n.findNodesReply Γ fm).findValue = true ∧ (n.findNodesReply Γ fm).valueFound = true := by
  unfold findNodesReply
  rw [he, hfv]
  exact ⟨rfl, rfl⟩

/-- The contact that was asked is the one whom the request of the lookup went to. -/
theorem destination_of_reply {q : SentRequest N} (hq : q.Valid Γ key) (hfn : .findSuccess t top ∈ q.callback.successFns) :
    q.message.destination = top.address := by
  have hcb := hq.callback
  generalize q.callback = cb at hfn hcb
  rcases hcb with rfl | hreq
  · cases hfn
  · cases hreq with
    | ping cb htype hdata => cases List.mem_singleton.1 hfn
    | find t' top' fv htype hdest hdata =>
      cases List.mem_singleton.1 hfn
      exact hdest

/-- The reply of a contact with the key `k` to a lookup for a value carries the value. -/
theorem value_in_reply (hΓ : Γ.Decodes)
    (h : Run (networkProgram Γ N) (fun m l => heldMeanwhile i t k m l = true ∧ HonestState key m)
      (startNetwork config key offset limit) m) (hI : HonestState key m) (hlive : (m.state.applications i).dead = false)
    (hl : heldMeanwhile i t k m l = true) (hmem : .app i (.base (.callback true (.findSuccess t top) msg)) ∈ m.stack)
    (htop : top.key = k) (hkind : (startedBy t (nodeConfig i m).trace).head? = some true) (ch : Choice) :
    (readFindNodes Γ ch msg).findValue = true ∧ (readFindNodes Γ ch msg).valueFound = true := by
  have hfresh : ∀ m l, heldMeanwhile i t k m l = true ∧ HonestState key m → freshNetworkTags m l = true :=
    fun m l h => (proper_of_heldMeanwhile h.1).1
  have hadded : ∀ m l, heldMeanwhile i t k m l = true ∧ HonestState key m → addedOnce m l = true :=
    fun m l h => addedOnce_of_properUse (proper_of_heldMeanwhile h.1).2
  have hT := trafficState_of_run hΓ hfresh h
  have hA : AddressState m := addressState_of_run hadded h
  have hcall := hI.calls i _ hmem
  obtain ⟨q, hq, hi, req, htarget, -, hrequest, -, -, hread, hmsg⟩ := reply_of_callback hΓ hfresh h hmem
  rcases hmsg with rfl | ⟨j, m₁, rest, h₁, h₂, hstack₁, rfl⟩
  · -- a node sends no request to itself
    have hdest : q.message.destination = addressOf m i := hcall.handles q.message rfl (by simp)
    exact absurd (hi ▸ hdest) (hI.requests q hq).destination
  · obtain ⟨q', hq', -, hfn, htag⟩ := success_of_run hΓ hfresh h hmem
    obtain rfl := hT.eq_of_tag hq' hq htag
    have hanswer : Answers Γ (m₁.state.applications j) (.handleFindNodes q'.message req) q'.message
        ((m₁.state.applications j).findNodesReplyTo Γ q'.message req) := .found hrequest
    have hmem₁ : .app j (.handleFindNodes q'.message req) ∈ m₁.stack := hstack₁ ▸ List.mem_cons_self
    -- the node that replied is the contact
    obtain ⟨-, hdest, -⟩ := answeredBy_address (fun m l h => proper_of_heldMeanwhile h) hI ⟨m₁, _, rest, h₁, h₂, hstack₁, hanswer⟩
    obtain ⟨⟨hne, j', hj', hkey'⟩, -⟩ := hcall.contacts top (.asked rfl)
    have haddr : addressOf m j' = addressOf m j := by rw [hj', ← destination_of_reply (hT.valid q' hq) hfn, hdest]
    obtain rfl : j' = j := hA.unique j' j haddr (hj' ▸ hne)
    have hkey : (m₁.state.applications j').key = k := (key_of_run h₁ j').trans (hkey'.trans htop)
    -- it replied while the lookup was underway
    have hq₁ : q' ∈ requests m₁.trace := by
      obtain ⟨q₁, hq₁, hmsg⟩ := request_of_answers hΓ h₁ (trafficState_of_run hΓ hfresh h₁) hmem₁ hanswer
      obtain rfl := hT.eq_of_tag (requests_subset h₂.trace_suffix hq₁) hq (congrArg Message.tag hmsg.symm)
      exact hq₁
    have hasked : q'.message ∈ askedWith t (nodeConfig i m).trace := asked_of_reply hΓ hfresh h hlive hq hmem rfl rfl
    have hstarted := underway_of_asked hΓ hfresh h hlive h₁ h₂ hq₁ hasked
    obtain ⟨l₁, hheld⟩ : ∃ l, heldMeanwhile i t k m₁ l = true := by
      have hsteps : Run (networkProgram Γ N) (fun m l => heldMeanwhile i t k m l = true ∧ ∃ l, heldMeanwhile i t k m l = true) m₁ m :=
        h₂.mono (fun m l h => ⟨h.1, l, h.1⟩)
      exact hsteps.holds_at_start ⟨l, hl⟩
    obtain ⟨e, he⟩ := held_of_heldMeanwhile hheld hstarted hkey
    have hfv : req.findValue = true := by
      have hkind' := (ofKind_of_run hΓ (run_node_freshTags hfresh h i) t).sent q'.message hasked ch
      rw [hread, hkind] at hkind'
      exact (Option.some.inj hkind').symm
    have hreply : readFindNodes Γ ch ((m₁.state.applications j').findNodesReplyTo Γ q'.message req) =
        (m₁.state.applications j').findNodesReply Γ req := hΓ.findNodes _ _
    rw [hreply]
    exact reply_with_value (htarget ▸ he) hfv

theorem repliedTo_cons {c : Call} {ch : Choice} {ntr : NodeTrace} (hc : c ≠ .eraseFinder t) :
    repliedTo Γ t ((c, ch) :: ntr) = repliedTo Γ t ntr ++ c.replies Γ t ch := if_neg hc

/-- A lookup that got a reply was started. -/
theorem started_of_replied {lossy : Prop} {n : KademliaNode} {stack : List Call} {ntr : NodeTrace}
    {r : BucketEntry × FindNodesMessage} (h : LookupState Γ lossy t n stack ntr) (hr : r ∈ repliedTo Γ t ntr) :
    startedBy t ntr ≠ [] := by
  rcases h with ⟨-, -, hview⟩ | ⟨nf, φ, -, -, hp⟩
  · have hnil : repliedTo Γ t ntr = [] := congrArg LookupView.replied hview
    rw [hnil] at hr
    cases hr
  · intro hnil
    have hstarted := hp.started
    rw [show (lookupView Γ t stack ntr).started = startedBy t ntr from rfl, hnil] at hstarted
    cases hstarted

/-- Whoever of the key `k` replied to a lookup for a value replied with the value. -/
theorem found_of_run (hΓ : Γ.Decodes) (hlong : ∀ fm, 1 + keyLen + 4 ≤ (Γ.findNodes.write fm).length)
    (h : Run (networkProgram Γ N) (fun m l => heldMeanwhile i t k m l = true) (startNetwork config key offset limit) m) :
    (startedBy t (nodeConfig i m).trace).head? = some true → ∀ r ∈ repliedTo Γ t (nodeConfig i m).trace, r.1.key = k →
      (r.2.findValue && r.2.valueFound) = true := by
  refine (honestState_of_run hΓ (fun m l hl => proper_of_heldMeanwhile hl) h).1.invariant
    (I := fun m => (startedBy t (nodeConfig i m).trace).head? = some true → ∀ r ∈ repliedTo Γ t (nodeConfig i m).trace, r.1.key = k →
      (r.2.findValue && r.2.valueFound) = true) (fun hkind => by cases hkind) ?_
  intro m l m' hr hI hl hs
  cases hs with
  | @run ch x rest w tr w' cs hw he =>
    intro hkind r hmem hr₁
    rcases runsIn_cases i x ch with ⟨hruns, -⟩ | ⟨c, hruns, hcall⟩
    · rw [nodeConfig, List.flatMap_cons, hruns, List.nil_append] at hkind hmem
      exact hI hkind r hmem hr₁
    · rw [nodeConfig, List.flatMap_cons, hruns, List.singleton_append] at hkind hmem
      have hc : c ≠ .eraseFinder t := by
        rintro rfl
        rw [show startedBy t ((Call.eraseFinder t, ch.toChoice) :: _) = [] from if_pos rfl] at hkind
        cases hkind
      rw [startedBy_cons hc] at hkind
      rw [repliedTo_cons hc] at hmem
      rcases List.mem_append.1 hmem with hmem | hmem
      · have hlookup := lookupState_of_run (t := t) True (fun _ _ _ => Or.inl trivial) (run_node hr i)
        have hstarted : startedBy t (tr.flatMap (runsIn i)) ≠ [] := started_of_replied hlookup hmem
        rw [List.head?_append_of_ne_nil _ hstarted] at hkind
        exact hI hkind r hmem hr₁
      · obtain ⟨top, msg, rfl, rfl⟩ := mem_replies hmem
        obtain rfl : x = .app i (.base (.callback true (.findSuccess t top) msg)) := by
          rcases hcall with rfl | ⟨-, h | ⟨a, h⟩⟩
          · rfl
          · cases h
          · cases h
        obtain ⟨μ, hsit⟩ := situation_of_run hΓ hlong (hr.mono (fun m l hl => calm_of_heldMeanwhile hl.1))
        have hkind : (startedBy t (tr.flatMap (runsIn i))).head? = some true := by
          rwa [show Call.starts t (.base (.callback true (.findSuccess t top) msg)) = [] from rfl, List.append_nil] at hkind
        have hfound := value_in_reply hΓ hr hl.2 (hsit.orderly.live i) hl.1 List.mem_cons_self hr₁ hkind ch.toChoice
        rw [hfound.1, hfound.2]
        rfl
  | event | reentry | leave => exact hI

end FoundAux

open FoundAux PaceAux AnsweredAux NetworkCall IntegrityAux

/-- Whoever looks for a value that somebody holds gets it. In a run in which no node dies or is removed, each node is added once, no
limit of a queue or of a link is hit, `Time` does not wrap, tags and addresses are drawn fresh, and whoever asks something of a node
names other inhabitants, and observes them by their own keys, let a lookup of node `i` be one for a value, and let whoever has the key
`k` hold a value for its target as long as it is underway. If the lookup hears of a contact with that key, from its own buckets or from
a reply, however late, then it ends in no other way than with a value, and the value hashes to the target. -/
theorem found_if_held {N : Nat} {Γ : Ctx} (hΓ : Γ.Decodes) (hlong : ∀ fm, 1 + keyLen + 4 ≤ (Γ.findNodes.write fm).length)
    {config : Fin N → Config} {key : Fin N → KademliaKey} {offset : Fin N → Time} {limit : UInt32} {m : NetworkConfig N}
    {i : Fin N} {t k : KademliaKey}
    (h : Run (networkProgram Γ N) (fun m l => heldMeanwhile i t k m l = true) (startNetwork config key offset limit) m)
    (hkind : (startedBy t (nodeConfig i m).trace).head? = some true)
    (hoffered : k ∈ (offeredTo t (nodeConfig i m).trace).map (·.key)) {c : Call} {rest : List (NetworkCall N)} {success : Bool}
    (hstack : m.stack = .app i c :: rest) (hends : c.ends = some (t, success)) :
    ∃ v, c = .findValueFinish t v ∧ Γ.sha1 v = t := by
  have hcalm := h.mono (fun m l hl => calm_of_heldMeanwhile hl)
  unfold Call.ends at hends
  split at hends
  · -- it does not fail, as the contact has replied with a value
    cases hends
    have htracked : (LookupAux.tracker t).ofCall (.findNodesFail t) = [.exhausted true] := if_pos rfl
    obtain ⟨hkeys, -, hno, -⟩ := replied_of_exhausted hΓ hlong hcalm hstack htracked rfl rfl
    obtain ⟨r, hr, hrk⟩ := List.mem_map.1 ((hkeys k).1 hoffered)
    have hfound := found_of_run hΓ hlong h hkind r hr hrk
    rw [hno r hr] at hfound
    cases hfound
  · cases hends
    have htracked : (LookupAux.tracker t).ofCall (.findNodesFinish t) = [.exhausted false] := if_pos rfl
    obtain ⟨-, -, -, hfalse⟩ := replied_of_exhausted hΓ hlong hcalm hstack htracked rfl rfl
    rw [hkind] at hfalse
    cases hfalse
  · cases hends
    rename_i v
    refine ⟨v, rfl, ?_⟩
    obtain ⟨m₁, m₂, h₁, -, -, q, j, fm, rest₁, e, top, msg, ch', rest₂, -, -, -, hf, rfl, -⟩ :=
      gotValue_of_run hΓ (fun m l hl => (proper_of_heldMeanwhile hl).1) h (hstack ▸ List.mem_cons_self)
    exact hashed_of_run (run_node h₁ j) _ _ hf
  · cases hends

/-- A node stores a value at another, and when it is there fetches it. -/
def storeThenFetch (i j : Fin 2) : List (NetworkLabel 2) :=
  [.enter (.add i)] ++ networkRuns 5 1 9 ++ [.enter (.add j)] ++ networkRuns 7 10 9 ++
    [.enter (.app i (.observe 7 (.starting 128)))] ++ networkRuns 0 19 1 ++
    [.enter (.app i (.storeAt 7 [1, 2, 3]))] ++ networkRuns 0 20 2 ++ [.enter .tick] ++ networkRuns 0 22 36 ++
    [.enter (.app i (fetch (sha1 [1, 2, 3]) (.of 3 4)))] ++ networkRuns 0 58 3 ++ [.enter .tick] ++ networkRuns 0 61 42 ++
    [.enter .tick] ++ networkRuns 0 103 9

/-- The fetch ends with a value of that hash. -/
theorem found_if_held_sample : ∃ (m : NetworkConfig 2) (rest : List (NetworkCall 2)) (v : List UInt8),
    m.stack = .app 0 (.findValueFinish (sha1 [1, 2, 3]) v) :: rest ∧ sha1 v = sha1 [1, 2, 3] := by
  obtain ⟨m, hr, hm⟩ := exists_run_of_follow (networkProgram .reference 2)
    (heldMeanwhile 0 (sha1 [1, 2, 3]) (.starting 128)) (sampleNetwork 1024)
    (storeThenFetch 0 1) (fun m : NetworkConfig 2 =>
      decide ((startedBy (sha1 [1, 2, 3]) (nodeConfig 0 m).trace).head? = some true) &&
        decide (KademliaKey.starting 128 ∈ (offeredTo (sha1 [1, 2, 3]) (nodeConfig 0 m).trace).map (·.key)) &&
          decide (m.stack.head? = some (.app 0 (.findValueFinish (sha1 [1, 2, 3]) [1, 2, 3])))) (by decide +kernel)
  simp only [Bool.and_eq_true, decide_eq_true_eq] at hm
  obtain ⟨rest, hstack⟩ := List.head?_eq_some_iff.1 hm.2
  obtain ⟨v, hc, hv⟩ := found_if_held Ctx.reference_decodes Ctx.reference_findNodes_length hr hm.1.1 hm.1.2 hstack rfl
  cases hc
  exact ⟨m, rest, [1, 2, 3], hstack, hv⟩

end Dhtsim
