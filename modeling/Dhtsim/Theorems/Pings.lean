import Dhtsim.Lemmas.Tracker
import Dhtsim.Model.Outside

/-!
# Pings

Callers of `ping` that come while a ping to the same address is outstanding are added to the map entry of the address; the
closures that will run captured the callback set of the first caller. So a function passed by a later caller never runs
(`pings_answered_false`), and every caller is answered in the runs in which later callers pass nothing.
-/

namespace Dhtsim

open CallMachine KademliaNode

/-- The ping that a call resolves: whether it succeeded, and its address. -/
def Call.resolvesPing : Call → Option (Bool × UInt32)
  | .base (.callback ok (.pingSuccess a _) _) => some (ok, a)
  | .base (.callback ok (.pingFailure a _) _) => some (ok, a)
  | _ => none

/-- The callback set that a call passes to `ping` for an address. -/
def Call.passesToPing (a : UInt32) : Call → List (CallbackSet PingFn)
  | .ping b cb => if b = a then [cb] else []
  | _ => []

/-- The callback sets passed to `ping` for an address since its last ping was resolved, the first one first. -/
def passedToPing (a : UInt32) : NodeTrace → List (CallbackSet PingFn)
  | [] => []
  | (c, _) :: tr => if c.resolvesPing.map (·.2) = some a then [] else passedToPing a tr ++ c.passesToPing a

/-- The function of a ping that a call runs, with the outcome it runs for. -/
def Call.answersPing : Call → List (Bool × PingFn)
  | .pinged ok fn => [(ok, fn)]
  | _ => []

/-- The functions that have to run: those of every set passed to a ping that was resolved since. -/
def pingsDue : NodeTrace → List (Bool × PingFn)
  | [] => []
  | (c, _) :: tr =>
    match c.resolvesPing with
    | some (ok, a) => ((passedToPing a tr).flatMap (·.fns ok)).map (ok, ·) ++ pingsDue tr
    | none => pingsDue tr

/-- The record is that of a ping to the address. -/
def SentMessage.isPingTo (a : UInt32) (r : SentMessage UInt32 SendFn) : Bool :=
  r.message.type = MessageType.ping.code && r.message.destination = a

/-- The records of pings to an address. -/
def KademliaNode.pingRecords (n : KademliaNode) (a : UInt32) : List (Tag × SentMessage UInt32 SendFn) :=
  n.callbacks.entries.filter (fun e => e.2.isPingTo a)

/-- A step that joins an outstanding ping passes no function. -/
def joinsNothing (m : NodeConfig) (l : NodeLabel) : Bool :=
  match l, m.stack with
  | .run _, .ping a cb :: _ => cb.isEmpty || !m.state.pingsInProgress.contains a
  | _, _ => true

namespace PingAux

/-- The pings of an address that are pending, each with the functions it captured. -/
def tracker (a : UInt32) : Tracker (CallbackSet PingFn) where
  fn
    | .pingSuccess b cb => if b = a then [cb] else []
    | .pingFailure b cb => if b = a then [cb] else []
    | .findSuccess _ _ => []
    | .findFailure _ _ => []
  call _ := []
  fn_ping _ _ := rfl
  fn_find _ _ := rfl
  call_dispatch _ := rfl

/-- The state of the pings to an address: none is outstanding, and nobody waits; or one is, and it captured the functions of
all who wait. -/
def Outstanding (a : UInt32) (n : KademliaNode) (stack : List Call) (tr : NodeTrace) : Prop :=
  (n.pingsInProgress.find? a = none ∧ (tracker a).pending n stack = [] ∧ passedToPing a tr = []) ∨
    ∃ old cb, n.pingsInProgress.find? a = some old ∧ (tracker a).pending n stack = [cb] ∧
      ∀ ok, (passedToPing a tr).flatMap (·.fns ok) = cb.fns ok

variable {Γ : Ctx} {config : Config} {key : KademliaKey} {offset : Time} {ch : Choice} {c : Call} {n n' : KademliaNode}
  {p : KademliaNode × List Call} {rest stack : List Call} {tr : NodeTrace} {a : UInt32}

theorem ofCall_send (a b : UInt32) (cb : CallbackSet PingFn) (m : Message UInt32) (r : UInt32) (t : UInt64) :
    (tracker a).ofCall (.base (.send m (.of (.pingSuccess b cb) (.pingFailure b cb)) r t)) = if b = a then [cb] else [] :=
  List.append_nil _

/-- Only `ping` makes a call that stands for a ping. -/
theorem ofCall_of_makes {x : Call} (h : Makes Γ ch n c x) (hping : ∀ b cb, c ≠ .ping b cb)
    (hc : ∀ b, c = .base b → ∃ ok fn m, b = .callback ok fn m) : (tracker a).ofCall x = [] := by
  have hbase : ∀ b, c = .base b → (∀ ok fn m, b ≠ .callback ok fn m) → False := by
    intro b hb hne
    obtain ⟨ok, fn, m, rfl⟩ := hc b hb
    exact hne ok fn m rfl
  cases h with
  | giveUp | sendDead | resolve => exact (hbase _ rfl (by simp)).elim
  | pingSend hf => exact absurd rfl (hping _ _)
  | _ => rfl

/-- What a call does to the pings of an address. -/
inductive Moves (a : UInt32) (n : KademliaNode) (c : Call) (p : KademliaNode × List Call) (rest : List Call) : Prop where
  /-- A ping is made. -/
  | made (cb : CallbackSet PingFn) (hc : c = .ping a cb) (hold : n.pingsInProgress.find? a = none)
      (hnew : p.1.pingsInProgress.find? a = some cb)
      (hpending : (tracker a).pending p.1 (p.2 ++ rest) = cb :: (tracker a).pending n (c :: rest))
  /-- A ping is joined. -/
  | joined (cb old : CallbackSet PingFn) (hc : c = .ping a cb) (hold : n.pingsInProgress.find? a = some old)
      (hnew : p.1.pingsInProgress.find? a = some (old.add cb))
      (hpending : (tracker a).pending p.1 (p.2 ++ rest) = (tracker a).pending n (c :: rest))
  /-- A ping is resolved. -/
  | resolved (ok : Bool) (cb : CallbackSet PingFn) (hc : c.resolvesPing = some (ok, a))
      (hfn : ∃ m, c = .base (.callback ok (.pingSuccess a cb) m) ∨ c = .base (.callback ok (.pingFailure a cb) m))
      (hnew : p.1.pingsInProgress.find? a = none)
      (hpending : (tracker a).pending n (c :: rest) = cb :: (tracker a).pending p.1 (p.2 ++ rest))
  /-- The call has nothing to do with the pings of the address. -/
  | other (hresolves : c.resolvesPing.map (·.2) ≠ some a) (hpasses : c.passesToPing a = [])
      (hnew : p.1.pingsInProgress.find? a = n.pingsInProgress.find? a)
      (hpending : ((tracker a).pending p.1 (p.2 ++ rest)).Perm ((tracker a).pending n (c :: rest)))

/-- A ping is made or joined. -/
theorem moves_ping (a : UInt32) (rest : List Call) {b : UInt32} {cb : CallbackSet PingFn} (he : exec Γ ch (.ping b cb) n = some p) :
    Moves a n (.ping b cb) p rest := by
  obtain ⟨hp, hpc⟩ := Tracker.pending_other (tracker a) rest he (by simp)
  rw [show (tracker a).ofCall (.ping b cb) = [] from rfl, List.nil_append] at hpc
  have hpasses : b ≠ a → (Call.ping b cb).passesToPing a = [] := fun hb => if_neg hb
  simp only [exec, ping, Option.some.injEq] at he
  cases hf : n.pingsInProgress.find? b with
  | none =>
    rw [hf] at he
    cases he
    rw [List.flatMap_singleton, ofCall_send] at hp
    by_cases hb : b = a
    · subst hb
      rw [if_pos rfl] at hp
      exact .made cb rfl hf (by simp) (by rw [hp, hpc]; rfl)
    · rw [if_neg hb] at hp
      refine .other (by simp [Call.resolvesPing]) (hpasses hb) (SortedMap.find?_insert_of_ne _ _ (Ne.symm hb)) ?_
      rw [hp, hpc, List.nil_append]
  | some old =>
    rw [hf] at he
    cases he
    rw [List.flatMap_nil, List.nil_append] at hp
    by_cases hb : b = a
    · subst hb
      exact .joined cb old rfl hf (by simp) (hp.trans hpc.symm)
    · refine .other (by simp [Call.resolvesPing]) (hpasses hb) (SortedMap.find?_insert_of_ne _ _ (Ne.symm hb)) ?_
      exact List.Perm.of_eq (hp.trans hpc.symm)

/-- A ping is resolved. -/
theorem moves_resolve (a : UInt32) (rest : List Call) {ok : Bool} {b : UInt32} {cb : CallbackSet PingFn} {fn : SendFn}
    {m : Message UInt32} (hfn : fn = .pingSuccess b cb ∨ fn = .pingFailure b cb)
    (he : exec Γ ch (.base (.callback ok fn m)) n = some p) : Moves a n (.base (.callback ok fn m)) p rest := by
  obtain ⟨hp, hpc⟩ := Tracker.pending_other (tracker a) rest he (by simp)
  have hcall : (tracker a).ofCall (.base (.callback ok fn m)) = if b = a then [cb] else [] := by
    rcases hfn with rfl | rfl <;> rfl
  have hresolves : (Call.base (.callback ok fn m)).resolvesPing = some (ok, b) := by
    rcases hfn with rfl | rfl <;> rfl
  have hpings : p.1.pingsInProgress = n.pingsInProgress.erase b := by
    rcases hfn with rfl | rfl <;> cases he <;> rfl
  have hnone : p.2.flatMap (tracker a).ofCall = [] := by
    rw [List.flatMap_eq_nil_iff]
    intro x hx
    have hmakes := exec_makes he x hx
    rcases hfn with rfl | rfl <;> cases hmakes <;> rfl
  rw [hnone, List.nil_append] at hp
  rw [hcall] at hpc
  by_cases hb : b = a
  · subst hb
    rw [if_pos rfl] at hpc
    refine .resolved ok cb hresolves ⟨m, ?_⟩ (by rw [hpings]; simp) (by rw [hp, hpc]; rfl)
    rcases hfn with rfl | rfl
    · exact Or.inl rfl
    · exact Or.inr rfl
  · rw [if_neg hb] at hpc
    refine .other (by rw [hresolves]; simpa using hb) rfl ?_ (by rw [hp, hpc, List.nil_append])
    rw [hpings, SortedMap.find?_erase_of_ne _ (Ne.symm hb)]

/-- A call that neither makes nor resolves a ping. -/
theorem moves_other (a : UInt32) {okStep : NodeConfig → NodeLabel → Prop}
    (hr : Run (nodeProgram Γ) okStep (startNode config key offset) ⟨n, c :: rest, tr⟩)
    (hfresh : freshTags ⟨n, c :: rest, tr⟩ (.run ch) = true) (hping : ∀ b cb, c ≠ .ping b cb)
    (hres : ∀ ok fn m b cb, c = .base (.callback ok fn m) → fn ≠ .pingSuccess b cb ∧ fn ≠ .pingFailure b cb)
    (he : exec Γ ch c n = some p) : Moves a n c p rest := by
  have hpings : p.1.pingsInProgress = n.pingsInProgress := by
    rcases exec_pingsInProgress he with h | ⟨b, cb, rfl, -⟩ | ⟨b, cb, _, rfl, -⟩ | ⟨ok, b, cb, m, hc, -⟩
    · exact h
    · exact absurd rfl (hping b cb)
    · exact absurd rfl (hping b cb)
    · rcases hc with rfl | rfl
      · exact absurd rfl (hres _ _ _ b cb rfl).1
      · exact absurd rfl (hres _ _ _ b cb rfl).2
  have hresolves : c.resolvesPing = none := by
    unfold Call.resolvesPing
    split
    · exact absurd rfl (hres _ _ _ _ _ rfl).1
    · exact absurd rfl (hres _ _ _ _ _ rfl).2
    · rfl
  have hpasses : c.passesToPing a = [] := by
    unfold Call.passesToPing
    split
    · exact absurd rfl (hping _ _)
    · rfl
  refine .other (by rw [hresolves]; simp) hpasses (by rw [hpings]) ?_
  rcases Tracker.pending_step (T := tracker a) (orderly_of_run hr) he with ⟨b, lost, -, -, hperm, hlost⟩ | ⟨hc, hp, hpc⟩
  · rwa [hlost (drawsNew_of_run hr hfresh), List.append_nil] at hperm
  · have hnone : p.2.flatMap (tracker a).ofCall = [] :=
      List.flatMap_eq_nil_iff.2 (fun x hx => ofCall_of_makes (exec_makes he x hx) hping hc)
    have hcall : (tracker a).ofCall c = [] := by
      cases c with
      | base b =>
        obtain ⟨ok, fn, m, rfl⟩ := hc b rfl
        cases fn with
        | pingSuccess b cb => exact absurd rfl (hres _ _ _ b cb rfl).1
        | pingFailure b cb => exact absurd rfl (hres _ _ _ b cb rfl).2
        | _ => rfl
      | _ => rfl
    rw [hp, hpc, hnone, hcall]

/-- Every call makes, joins or resolves a ping of the address, or has nothing to do with them. -/
theorem moves_of_exec (a : UInt32) {okStep : NodeConfig → NodeLabel → Prop}
    (hr : Run (nodeProgram Γ) okStep (startNode config key offset) ⟨n, c :: rest, tr⟩)
    (hfresh : freshTags ⟨n, c :: rest, tr⟩ (.run ch) = true) (he : exec Γ ch c n = some p) : Moves a n c p rest := by
  by_cases hping : ∃ b cb, c = .ping b cb
  · obtain ⟨b, cb, rfl⟩ := hping
    exact moves_ping a rest he
  by_cases hres : ∃ ok fn m b cb, c = .base (.callback ok fn m) ∧ (fn = .pingSuccess b cb ∨ fn = .pingFailure b cb)
  · obtain ⟨ok, fn, msg, b, cb, rfl, hfn⟩ := hres
    exact moves_resolve a rest hfn he
  refine moves_other a hr hfresh (fun b cb hc => hping ⟨b, cb, hc⟩) (fun ok fn msg b cb hc => ?_) he
  exact ⟨fun hfn => hres ⟨ok, fn, msg, b, cb, hc, Or.inl hfn⟩, fun hfn => hres ⟨ok, fn, msg, b, cb, hc, Or.inr hfn⟩⟩

/-- What comes in stands for no ping. -/
theorem pending_event (hc : c.isEvent = true) : (tracker a).pending n (c :: stack) = (tracker a).pending n stack := by
  have hnil : (tracker a).ofCall c = [] := by
    cases c with
    | base b => exact Tracker.ofCall_base_of_isEvent hc
    | _ => rfl
  rw [Tracker.pending_enter hc, hnil, List.nil_append]

/-- Outside code stands for no ping. -/
theorem pending_waits (hc : (nodeProgram Γ).waits c = true) : (tracker a).pending n (c :: stack) = (tracker a).pending n stack := by
  cases c with
  | userCode => exact Tracker.pending_cons rfl
  | _ => cases hc

/-- An address is in progress when one ping to it is pending, and no second one ever is. -/
theorem inProgress_of_run {okStep : NodeConfig → NodeLabel → Prop} (hok : ∀ m l, okStep m l → freshTags m l = true)
    {m : NodeConfig} (h : Run (nodeProgram Γ) okStep (startNode config key offset) m) (a : UInt32) :
    ((tracker a).pending m.state m.stack).length = (m.state.pingsInProgress.contains a).toNat := by
  refine h.invariant (I := fun m => ((tracker a).pending m.state m.stack).length =
    (m.state.pingsInProgress.find? a).isSome.toNat) rfl ?_
  intro m l m' hr hI ho hs
  cases hs with
  | @run ch c rest n tr n' cs hw he =>
    cases moves_of_exec a hr (hok _ _ ho) he with
    | made cb hc hold hnew hpending =>
      rw [hold] at hI
      rw [show (tracker a).pending n' (cs ++ rest) = _ from hpending, show n'.pingsInProgress.find? a = _ from hnew,
        List.length_cons, hI]
      rfl
    | joined cb old hc hold hnew hpending =>
      rw [hold] at hI
      rw [show (tracker a).pending n' (cs ++ rest) = _ from hpending, show n'.pingsInProgress.find? a = _ from hnew, hI]
      rfl
    | resolved ok cb hc hfn hnew hpending =>
      have hle := Bool.toNat_le (n.pingsInProgress.find? a).isSome
      rw [← show _ = (n.pingsInProgress.find? a).isSome.toNat from hI, hpending, List.length_cons] at hle
      rw [show n'.pingsInProgress.find? a = none from hnew]
      exact Nat.le_zero.1 (Nat.le_of_succ_le_succ hle)
    | other hresolves hpasses hnew hpending =>
      rw [show n'.pingsInProgress.find? a = _ from hnew]
      exact hpending.length_eq.trans hI
  | event hc => rwa [pending_event hc]
  | reentry hf hc => rwa [pending_event (isEvent_of_enters (Γ := Γ) (Or.inr hc))]
  | leave hf => rwa [pending_waits hf] at hI

/-- A request's record stands for a ping to an address when it is that of one, and for one at most. -/
theorem ofSet_request {r : SentMessage UInt32 SendFn} (h : IsRequest Γ key r.message r.callback) :
    (r.isPingTo a = true → ∃ cb, r.callback = .of (.pingSuccess a cb) (.pingFailure a cb)) ∧
      ((tracker a).ofSet r.callback).length = (r.isPingTo a).toNat := by
  have hping : r.isPingTo a = (r.message.type = MessageType.ping.code && r.message.destination = a) := rfl
  generalize r.message = msg at h hping
  generalize r.callback = cbs at h
  cases h with
  | ping cb htype hdata =>
    by_cases ha : msg.destination = a
    · rw [hping, htype, ha]
      exact ⟨fun _ => ⟨cb, rfl⟩, by simp [Tracker.ofSet, tracker, CallbackSet.of]⟩
    · have hno : r.isPingTo a = false := by simp [hping, ha]
      rw [hno]
      exact ⟨fun h => Bool.noConfusion h, by simp [Tracker.ofSet, tracker, CallbackSet.of, ha]⟩
  | find target top findValue htype hdest hdata =>
    have hno : r.isPingTo a = false := by simp [hping, htype, MessageType.code]
    rw [hno]
    exact ⟨fun h => Bool.noConfusion h, rfl⟩

/-- Between events, the pings of an address that are pending are those of its records. -/
theorem length_pingRecords (hn : n.RecordsRequests Γ) (a : UInt32) :
    (n.pingRecords a).length = ((tracker a).pending n []).length := by
  have hlength : ∀ l : List (Tag × SentMessage UInt32 SendFn), (∀ e ∈ l, e ∈ n.callbacks.entries) →
      (l.filter (fun e => e.2.isPingTo a)).length = (l.flatMap (fun e => (tracker a).ofSet e.2.callback)).length := by
    intro l hl
    induction l with
    | nil => rfl
    | cons e l ih =>
      have hrest := ih (fun e he => hl e (List.mem_cons_of_mem _ he))
      have he := (ofSet_request (a := a) (hn _ _ (hl e List.mem_cons_self))).2
      rw [List.flatMap_cons, List.length_append, he, ← hrest, List.filter_cons]
      cases e.2.isPingTo a with
      | true => simp [Nat.add_comm]
      | false => simp
  rw [pingRecords, hlength _ (fun e he => he)]
  simp [Tracker.pending, Tracker.ofRecords, erasing]

/-- Every step keeps the pings of an address outstanding or not. -/
theorem outstanding_of_run {m : NodeConfig}
    (h : Run (nodeProgram Γ) (fun m l => (freshTags m l && joinsNothing m l) = true) (startNode config key offset) m)
    (a : UInt32) : Outstanding a m.state m.stack m.trace := by
  refine h.invariant (I := fun m => Outstanding a m.state m.stack m.trace) (Or.inl ⟨rfl, rfl, rfl⟩) ?_
  intro m l m' hr hI hok hs
  rw [Bool.and_eq_true] at hok
  cases hs with
  | @run ch c rest n tr n' cs hw he =>
    -- who joins passes nothing, so that the functions of all who wait stay those that the ping captured
    cases moves_of_exec a hr hok.1 he with
    | made cb hc hold hnew hpending =>
      subst hc
      have hpassed : passedToPing a ((.ping a cb, ch) :: tr) = passedToPing a tr ++ [cb] := by
        simp [passedToPing, Call.resolvesPing, Call.passesToPing]
      rcases hI with ⟨h1, h2, h3⟩ | ⟨old, cb₀, h1, -, -⟩
      · rw [h2] at hpending
        refine Or.inr ⟨cb, cb, hnew, hpending, fun ok => ?_⟩
        rw [hpassed, h3, List.nil_append, List.flatMap_singleton]
      · rw [hold] at h1
        cases h1
    | joined cb old hc hold hnew hpending =>
      subst hc
      have hpassed : passedToPing a ((.ping a cb, ch) :: tr) = passedToPing a tr ++ [cb] := by
        simp [passedToPing, Call.resolvesPing, Call.passesToPing]
      have hempty : cb = .empty := by
        have hjoin := hok.2
        simp only [joinsNothing, SortedMap.contains, hold, Option.isSome_some, Bool.not_true, Bool.or_false] at hjoin
        exact eq_empty_of_isEmpty hjoin
      rcases hI with ⟨h1, -, -⟩ | ⟨old', cb₀, -, h2, h3⟩
      · rw [hold] at h1
        cases h1
      · refine Or.inr ⟨old.add cb, cb₀, hnew, hpending.trans h2, fun ok => ?_⟩
        rw [hpassed, List.flatMap_append, h3, List.flatMap_singleton, hempty, CallbackSet.fns_empty, List.append_nil]
    | resolved ok cb hc hfn hnew hpending =>
      have hpassed : passedToPing a ((c, ch) :: tr) = [] := by simp [passedToPing, hc]
      rcases hI with ⟨-, h2, -⟩ | ⟨old, cb₀, -, h2, h3⟩
      · rw [hpending] at h2
        cases h2
      · rw [hpending] at h2
        exact Or.inl ⟨hnew, (List.cons_eq_cons.1 h2).2, hpassed⟩
    | other hresolves hpasses hnew hpending =>
      have hpassed : passedToPing a ((c, ch) :: tr) = passedToPing a tr := by
        rw [passedToPing, if_neg hresolves, hpasses, List.append_nil]
      rcases hI with ⟨h1, h2, h3⟩ | ⟨old, cb, h1, h2, h3⟩
      · exact Or.inl ⟨hnew.trans h1, List.Perm.eq_nil (h2 ▸ hpending), hpassed.trans h3⟩
      · refine Or.inr ⟨old, cb, hnew.trans h1, List.perm_singleton.1 (h2 ▸ hpending), fun ok => ?_⟩
        rw [hpassed, h3]
  | event hc => rwa [Outstanding, pending_event hc]
  | reentry hf hc => rwa [Outstanding, pending_event (isEvent_of_enters (Γ := Γ) (Or.inr hc))]
  | leave hf => rwa [Outstanding, pending_waits hf] at hI

/-- When a ping is resolved, the functions that it captured are those of everybody who waits. -/
theorem waiting_of_resolve {m : NodeConfig} {ok : Bool} {fn : SendFn} {msg : Message UInt32} {cb : CallbackSet PingFn}
    (hr : Run (nodeProgram Γ) (fun m l => (freshTags m l && joinsNothing m l) = true) (startNode config key offset) m)
    (hstack : m.stack = .base (.callback ok fn msg) :: rest) (hfn : fn = .pingSuccess a cb ∨ fn = .pingFailure a cb) :
    ∀ ok, (passedToPing a m.trace).flatMap (·.fns ok) = cb.fns ok := by
  have hpending : (tracker a).pending m.state m.stack = cb :: (tracker a).pending m.state rest := by
    rw [hstack, Tracker.pending_cons rfl]
    rcases hfn with rfl | rfl <;> simp [Tracker.ofCall, tracker]
  rcases outstanding_of_run hr a with ⟨-, h2, -⟩ | ⟨old, cb₀, -, h2, h3⟩
  · rw [hpending] at h2
    cases h2
  · rw [hpending] at h2
    rwa [(List.cons_eq_cons.1 h2).1]

/-- The functions that run when a ping is resolved are those that everybody who waits has passed. -/
theorem resolve_calls {m : NodeConfig} {ok : Bool} {fn : SendFn} {msg : Message UInt32}
    (hr : Run (nodeProgram Γ) (fun m l => (freshTags m l && joinsNothing m l) = true) (startNode config key offset) m)
    (hstack : m.stack = .base (.callback ok fn msg) :: rest)
    (ha : (Call.base (.callback ok fn msg)).resolvesPing = some (ok, a))
    (he : exec Γ ch (.base (.callback ok fn msg)) m.state = some p) :
    p.2 = ((passedToPing a m.trace).flatMap (·.fns ok)).map (.pinged ok) := by
  have hfrom := (fromRequests_of_run hr).2 _ (by rw [hstack]; exact List.mem_cons_self)
  cases ok with
  | true =>
    rcases success_cases hfrom with ⟨b, cb, rfl⟩ | ⟨t, top, rfl⟩
    · cases ha
      rw [waiting_of_resolve hr hstack (Or.inl rfl) true]
      cases he
      rfl
    · cases ha
  | false =>
    rcases failure_cases hfrom with ⟨cb, rfl, -⟩ | ⟨t, top, rfl, -⟩
    · cases ha
      rw [waiting_of_resolve hr hstack (Or.inr rfl) false]
      cases he
      rfl
    · cases ha

/-- Functions of pings run when a ping is resolved, and at no other time. -/
theorem makes_answersPing {x : Call} (h : Makes Γ ch n c x) (hc : c.resolvesPing = none) : x.answersPing = [] := by
  cases h with
  | pingSucceeded hfn => cases hc
  | pingFailed hfn => cases hc
  | _ => rfl

/-- The functions that have run, and those about to, are those that have to. -/
theorem answered_of_run {m : NodeConfig}
    (h : Run (nodeProgram Γ) (fun m l => (freshTags m l && joinsNothing m l) = true) (startNode config key offset) m) :
    (tally Call.answersPing m).Perm (pingsDue m.trace) := by
  refine h.tally_perm (List.Perm.refl _) ?_ ?_ ?_
  · intro ch c rest n tr n' cs hr hok he
    cases hres : c.resolvesPing with
    | none =>
      have hnone : cs.flatMap Call.answersPing = [] :=
        List.flatMap_eq_nil_iff.2 (fun x hx => makes_answersPing (exec_makes he x hx) hres)
      rw [hnone, List.nil_append, pingsDue, hres]
    | some r =>
      obtain ⟨ok, a⟩ := r
      have hc : ∃ fn msg, c = .base (.callback ok fn msg) := by
        unfold Call.resolvesPing at hres
        split at hres
        · cases hres; exact ⟨_, _, rfl⟩
        · cases hres; exact ⟨_, _, rfl⟩
        · cases hres
      obtain ⟨fn, msg, rfl⟩ := hc
      have hcalls : cs = _ := resolve_calls hr rfl hres he
      have hmap : ∀ l : List PingFn, l.flatMap (fun fn => Call.answersPing (.pinged ok fn)) = l.map (ok, ·) :=
        fun l => (List.map_eq_flatMap (f := (ok, ·)) (l := l)).symm
      rw [pingsDue, hres, hcalls, List.flatMap_map, hmap]
  · intro c hc
    have hc := isEvent_of_enters hc
    cases c with
    | pinged ok fn => cases hc
    | _ => rfl
  · intro c hc
    cases c with
    | userCode => rfl
    | _ => cases hc

end PingAux

open PingAux

/-- Every ping caller is answered, in four parts, in the runs whose tags differ and in which nobody who joins an outstanding
ping passes a function.
1. When the outstanding ping to an address resolves, the functions that run next are those of every callback set passed for
   the address since it was sent, each once: those for success if it succeeded, those for failure if it failed.
2. Over the whole run, the functions that have run, and those on the stack, are those that part 1 speaks of, each as often.
3. Nobody waits for an address to which no ping is outstanding.
4. A ping of a live node succeeds when a message with its tag arrives, and fails when it is overdue without retries left. -/
theorem pings_answered {Γ : Ctx} {config : Config} {key : KademliaKey} {offset : Time} {m : NodeConfig}
    (h : Run (nodeProgram Γ) (fun m l => (freshTags m l && joinsNothing m l) = true) (startNode config key offset) m)
    (hlive : m.state.dead = false) :
    (∀ ch ok fn msg rest a m', m.stack = .base (.callback ok fn msg) :: rest →
      (Call.base (.callback ok fn msg)).resolvesPing = some (ok, a) → step (nodeProgram Γ) m (.run ch) = some m' →
      m'.stack = ((passedToPing a m.trace).flatMap (·.fns ok)).map (.pinged ok) ++ rest) ∧
    (tally Call.answersPing m).Perm (pingsDue m.trace) ∧
    (∀ a, m.state.pingsInProgress.find? a = none → passedToPing a m.trace = []) ∧
    (∀ c ch p ok fn msg, exec Γ ch c m.state = some p → .base (.callback ok fn msg) ∈ p.2 →
      if ok then ∃ r, m.state.callbacks.find? msg.tag = some r ∧ fn ∈ r.callback.successFns
      else ∃ tag r, (tag, r) ∈ m.state.callbacks.entries ∧ msg = r.message ∧ r.nextSend ≤ m.state.epoch ∧
        r.needsRetry = false) := by
  refine ⟨?_, answered_of_run h, fun a ha => ?_, ?_⟩
  · intro ch ok fn msg rest a m' hstack ha hs
    obtain ⟨n, stack, tr⟩ := m
    simp only at hstack
    subst hstack
    cases step_of_eq_some hs with
    | run hw he => exact congrArg (· ++ rest) (resolve_calls h rfl ha he)
  · rcases outstanding_of_run h a with ⟨-, -, hp⟩ | ⟨old, cb, hf, -, -⟩
    · exact hp
    · rw [ha] at hf
      cases hf
  · intro c ch p ok fn msg he hmem
    cases ok with
    | true =>
      rw [if_pos rfl]
      cases exec_makes he _ hmem with
      | resolve hf hfn => exact ⟨_, hf, hfn⟩
    | false =>
      rw [if_neg (by simp)]
      exact failure_of_live (exec_makes he _ hmem) hlive

/-- Two pings to one address, the second made while the first is outstanding, then a tick for the retry, and the tick in which
it fails. -/
def joinedPings (second : CallbackSet PingFn) : List NodeLabel :=
  [.enter (.ping 5 (.of (.user 1) (.user 2)))] ++ runs 1 2 ++ [.enter (.ping 5 second)] ++ runs 3 1 ++
    [.enter (.tick 2)] ++ runs 4 8 ++ [.enter (.tick 6)] ++ runs 12 6 ++ [.leave] ++ runs 18 4

/-- A caller who joins and passes nothing: the first caller is answered. -/
theorem pings_answered_sample : ∃ m : NodeConfig, pingsDue m.trace = [(false, .user 2)] ∧ m.stack = [] ∧
    (tally Call.answersPing m).Perm (pingsDue m.trace) := by
  obtain ⟨m, hr, hm⟩ := exists_run_of_follow (nodeProgram .reference) (fun m l => freshTags m l && joinsNothing m l)
    (sampleNode .zero) (joinedPings .empty)
    (fun m => !m.state.dead && decide (pingsDue m.trace = [(false, .user 2)]) && m.stack.isEmpty) (by decide +kernel)
  simp only [Bool.and_eq_true, Bool.not_eq_true', decide_eq_true_eq, List.isEmpty_iff] at hm
  exact ⟨m, hm.1.2, hm.2, (pings_answered hr hm.1.1).2.1⟩

/-- A caller who joins an outstanding ping is never answered: the ping fails, and only the function of the first caller runs. -/
theorem pings_answered_false : ∃ m : NodeConfig, Run (nodeProgram .reference) (fun m l => freshTags m l = true)
      (sampleNode .zero) m ∧ m.stack = [] ∧ m.state.dead = false ∧
    pingsDue m.trace = [(false, .user 2), (false, .user 4)] ∧ tally Call.answersPing m = [(false, .user 2)] ∧
    m.state.pingsInProgress.entries = [] := by
  obtain ⟨m, hr, hm⟩ := exists_run_of_follow (nodeProgram .reference) freshTags (sampleNode .zero)
    (joinedPings (.of (.user 3) (.user 4)))
    (fun m => m.stack.isEmpty && !m.state.dead && decide (pingsDue m.trace = [(false, .user 2), (false, .user 4)]) &&
      decide (tally Call.answersPing m = [(false, .user 2)]) && m.state.pingsInProgress.entries.isEmpty)
    (by decide +kernel)
  simp only [Bool.and_eq_true, List.isEmpty_iff, Bool.not_eq_true', decide_eq_true_eq] at hm
  obtain ⟨⟨⟨⟨h1, h2⟩, h3⟩, h4⟩, h5⟩ := hm
  exact ⟨m, hr, h1, h2, h3, h4, h5⟩

/-! ## The pings in progress -/

/-- The pings in progress are those that have a record, in four parts, between the events of a live node whose tags differ.
1. An address is in progress if and only if there is exactly one record of a ping to it.
2. There is never a second one.
3. Whichever way that record ends, what runs takes the address out of the pings in progress.
4. A ping to an address that is not in progress sends a request to it. -/
theorem pings_bookkept {Γ : Ctx} {config : Config} {key : KademliaKey} {offset : Time} {m : NodeConfig}
    (h : Run (nodeProgram Γ) (fun m l => freshTags m l = true) (startNode config key offset) m)
    (hidle : m.stack = []) (a : UInt32) :
    (m.state.pingsInProgress.contains a = true ↔ ∃ e, m.state.pingRecords a = [e]) ∧
    (m.state.pingRecords a).length ≤ 1 ∧
    (∀ e ∈ m.state.pingRecords a, ∀ ok, e.2.callback.fns ok ≠ [] ∧ ∀ fn ∈ e.2.callback.fns ok, ∀ ch n p msg,
      exec Γ ch (.base (.callback ok fn msg)) n = some p → p.1.pingsInProgress.contains a = false) ∧
    (m.state.pingsInProgress.contains a = false → ∀ ch cb p, exec Γ ch (.ping a cb) m.state = some p →
      ∃ msg cbs, p.2 = [.base (.send msg cbs 1 2)] ∧ msg.type = MessageType.ping.code ∧ msg.destination = a) := by
  obtain ⟨⟨-, hreq⟩, -⟩ := fromRequests_of_run h
  have hcount : (m.state.pingRecords a).length = (m.state.pingsInProgress.contains a).toNat := by
    rw [length_pingRecords hreq, ← hidle, inProgress_of_run (fun _ _ h => h) h a]
  refine ⟨?_, ?_, fun e he ok => ?_, fun hnone ch cb p he => ?_⟩
  · rw [← List.length_eq_one_iff, hcount]
    cases m.state.pingsInProgress.contains a <;> simp
  · rw [hcount]
    exact Bool.toNat_le _
  · obtain ⟨hmem, hping⟩ := List.mem_filter.1 he
    obtain ⟨cb, hcb⟩ := (ofSet_request (a := a) (hreq _ _ hmem)).1 hping
    rw [hcb]
    cases ok with
    | true =>
      refine ⟨List.cons_ne_nil _ _, fun fn hfn ch n p msg hexec => ?_⟩
      cases List.mem_singleton.1 hfn
      cases hexec
      simp [execBase, sendCallback, SortedMap.contains]
    | false =>
      refine ⟨List.cons_ne_nil _ _, fun fn hfn ch n p msg hexec => ?_⟩
      cases List.mem_singleton.1 hfn
      cases hexec
      simp [execBase, sendCallback, SortedMap.contains, unobserve]
  · have hf : m.state.pingsInProgress.find? a = none := by
      simpa [SortedMap.contains] using hnone
    cases he
    simp only [ping, hf]
    exact ⟨_, _, rfl, rfl, rfl⟩

/-- A ping that was joined and sent a second time has its one record. -/
theorem pings_bookkept_sample : ∃ m : NodeConfig, m.stack = [] ∧ m.state.pingsInProgress.contains 5 = true ∧
    ∃ e, m.state.pingRecords 5 = [e] := by
  obtain ⟨m, hr, hm⟩ := exists_run_of_follow (nodeProgram .reference) freshTags (sampleNode .zero)
    ([.enter (.ping 5 (.of (.user 1) (.user 2)))] ++ runs 1 2 ++ [.enter (.ping 5 (.of (.user 3) (.user 4)))] ++ runs 3 1 ++
      [.enter (.tick 2)] ++ runs 4 8)
    (fun m => m.stack.isEmpty && m.state.pingsInProgress.contains 5) (by decide +kernel)
  simp only [Bool.and_eq_true, List.isEmpty_iff] at hm
  exact ⟨m, hm.1, hm.2, (pings_bookkept hr hm.1 5).1.1 hm.2⟩

end Dhtsim
