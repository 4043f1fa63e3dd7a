import Dhtsim.Model.Transcript
import Dhtsim.Model.Outside
import Dhtsim.Lemmas.Outbound

/-!
# The bandwidth record

A tick reports the bytes that it passed along, and besides the size of each message that it dropped or put back because of the
limit. So the records of a run are right exactly when no loop over the outbound messages comes to such a message.
-/

namespace Dhtsim

open CallMachine Moment

variable {N : Nat}

/-- The bytes that were passed along since the last tick ended. -/
def tickBytes : NetworkTrace N → Nat
  | [] => 0
  | (.endTick, _) :: _ => 0
  | (.passAlongMessage m, _) :: tr => m.data.length + tickBytes tr
  | _ :: tr => tickBytes tr

/-- The bytes that were passed along in each tick that ended, the last one first. -/
def bytesPassed : NetworkTrace N → List Nat
  | [] => []
  | (.endTick, _) :: tr => tickBytes tr :: bytesPassed tr
  | _ :: tr => bytesPassed tr

/-- The messages of an inhabitant fit the limit when the loop over them begins. -/
def withinLimit (m : RecordedConfig N) (_ : Label (NetworkCall N) NetworkChoice) : Prop :=
  ∀ i rest, m.stack = .outbound i 0 :: rest →
    bytes (m.state.network.applications i).outqueue ≤ m.state.network.linkLimit.toNat

namespace AccountingAux

variable {Γ : Ctx} {ch : NetworkChoice} {w w' : CentralizedNetwork N} {μ μ' : Moment N} {ran : List (NetworkCall N)}
  {m m' : RecordedConfig N} {l : Label (NetworkCall N) NetworkChoice} {s : RecordedNetwork N} {tr : NetworkTrace N} {d : Nat}
  {ok : RecordedConfig N → Label (NetworkCall N) NetworkChoice → Prop}

/-- What calls count or print, one after the other. -/
def recordAll (s : RecordedNetwork N) (ran : List (NetworkCall N)) : RecordedNetwork N := ran.foldl RecordedNetwork.record s

/-- A step of a network with its transcript is a step of the network, which counts and prints what the call does. -/
theorem step_forget (hs : Step (recordedProgram Γ N) m l m') : Step (networkProgram Γ N) m.forget l m'.forget ∧
    ∀ ran ch, m'.trace = ran.map (fun x => (x, ch)) ++ m.trace →
      m'.state = { recordAll m.state ran with network := m'.state.network } := by
  have hnothing : ∀ {tr : NetworkTrace N} {ran : List (NetworkCall N)} {ch}, tr = ran.map (fun x => (x, ch)) ++ tr → ran = [] := by
    intro tr ran ch h
    simpa using congrArg List.length h
  cases hs with
  | @run r c rest s tr s' cs hw he =>
    obtain ⟨⟨w', cs'⟩, he', heq⟩ := Option.map_eq_some_iff.1 he
    obtain ⟨rfl, rfl⟩ := Prod.mk.inj heq
    refine ⟨.run hw he', fun ran ch htrace => ?_⟩
    have hran : ran.map (fun x => (x, ch)) = [(c, r)] := (List.append_cancel_right htrace).symm
    obtain ⟨x, rfl, hx⟩ := List.map_eq_singleton_iff.1 hran
    cases hx
    rfl
  | event hc =>
    refine ⟨.event hc, fun ran ch htrace => ?_⟩
    rw [hnothing htrace]
    rfl
  | reentry hf hc =>
    refine ⟨.reentry hf hc, fun ran ch htrace => ?_⟩
    rw [hnothing htrace]
    rfl
  | leave hf =>
    refine ⟨.leave hf, fun ran ch htrace => ?_⟩
    rw [hnothing htrace]
    rfl

/-- What the tick has counted, against the bytes that it has passed along: the surplus. -/
def Counts (s : RecordedNetwork N) (tr : NetworkTrace N) (d : Nat) : Moment N → Prop
  | .between _ => tickBytes tr = 0 ∧ d = 0
  | .start => tickBytes tr = 0 ∧ d = 0
  | .emptying _ _ total => s.totalTransferred + total = tickBytes tr + d ∧ total ≤ s.network.linkLimit.toNat
  | .passing _ _ total (.passAlongMessage m) =>
    s.totalTransferred + total = tickBytes tr + m.data.length + d ∧ total ≤ s.network.linkLimit.toNat
  | .passing _ _ total _ => s.totalTransferred + total = tickBytes tr + d ∧ total ≤ s.network.linkLimit.toNat
  | _ => s.totalTransferred = tickBytes tr + d

/-- The size of the message that the loop over the outbound messages stops at. -/
def surplus (w : CentralizedNetwork N) : Moment N → Nat
  | .emptying _ i total =>
    match (w.applications i).outqueue with
    | [] => 0
    | m :: _ => if w.linkLimit.toNat < m.data.length ∨ w.linkLimit.toNat < total + m.data.length then m.data.length else 0
  | _ => 0

/-- What the loop over the outbound messages has passed along and what it has before it are within the limit. -/
def Fitting (w : CentralizedNetwork N) : Moment N → Prop
  | .emptying _ i total => total + bytes (w.applications i).outqueue ≤ w.linkLimit.toNat
  | .passing _ i total _ => total + bytes (w.applications i).outqueue ≤ w.linkLimit.toNat
  | _ => True

theorem tickBytes_cons {x : NetworkCall N} (h1 : x ≠ .endTick) : tickBytes ((x, ch) :: tr) = bytes (passed [x]) + tickBytes tr := by
  cases x with
  | endTick => exact absurd rfl h1
  | passAlongMessage m => simp [tickBytes, passed]
  | _ => simp [tickBytes, passed]

theorem bytesPassed_cons {x : NetworkCall N} (h1 : x ≠ .endTick) : bytesPassed ((x, ch) :: tr) = bytesPassed tr := by
  cases x with
  | endTick => exact absurd rfl h1
  | _ => rfl

theorem counts_inTurn {b : UInt32} {i : Fin N} {calls : List (NetworkCall N)} (h : s.totalTransferred = tickBytes tr + d) :
    Counts s tr d (inTurn b i calls) := by
  cases calls with
  | nil => exact ⟨h, Nat.zero_le _⟩
  | cons x calls => exact h

/-- Only the end of a tick prints a record. -/
theorem records_proceeds (hg : Proceeds Γ ch w μ ran w' μ') (hμ : μ ≠ .finish) :
    (recordAll s ran).records = s.records ∧ bytesPassed (ran.map (fun x => (x, ch)) ++ tr) = bytesPassed tr := by
  cases hg with
  | @aside x cs calls w' hx he =>
    cases x with
    | app | call | add | settle | remove => exact ⟨rfl, rfl⟩
    | _ => cases hx
  | ends => exact absurd rfl hμ
  | _ => exact ⟨rfl, rfl⟩

/-- A step adds to the surplus the size of the message that the loop over the outbound messages stops at. -/
theorem counts_proceeds (h : Counts s tr d μ) (hnet : s.network = w) (hg : Proceeds Γ ch w μ ran w' μ') (hμ : μ ≠ .finish) :
    Counts { recordAll s ran with network := w' } (ran.map (fun x => (x, ch)) ++ tr) (d + surplus w μ) μ' := by
  subst hnet
  cases hg with
  | @aside x cs calls w' hx he =>
    obtain ⟨hB, rfl⟩ := h
    cases x with
    | app | call | add | settle | remove => exact ⟨hB, rfl⟩
    | _ => cases hx
  | comes | returns | begins => exact h
  | loops =>
    obtain ⟨hB, rfl⟩ := h
    exact hB.symm
  | turn | noMore | handOn | reenters => exact h
  | leaves => exact counts_inTurn h
  | ticks => exact counts_inTurn h
  | @empty a i total hq =>
    have hlink : s.network.linkTransferred i total = some total := by simp [CentralizedNetwork.linkTransferred, hq]
    have hsurplus : surplus s.network (.emptying a i total) = 0 := by simp [surplus, hq]
    simp only [Counts, recordAll, List.foldl_cons, List.foldl_nil, RecordedNetwork.record, hlink, hsurplus, Option.getD_some]
    exact h.1
  | @drops a i total m rest hq hsize =>
    have hlink : s.network.linkTransferred i total = some (total + m.data.length) := by
      simp [CentralizedNetwork.linkTransferred, hq, hsize]
    have hsurplus : surplus s.network (.emptying a i total) = m.data.length := by simp [surplus, hq, hsize]
    simp only [Counts, recordAll, List.foldl_cons, List.foldl_nil, RecordedNetwork.record, hlink, hsurplus, Option.getD_some]
    have hcount : s.totalTransferred + total = tickBytes tr + d := h.1
    change s.totalTransferred + (total + m.data.length) = tickBytes tr + (d + m.data.length)
    omega
  | @exceeds a i total m rest hq hsize hlimit =>
    have hlink : s.network.linkTransferred i total = some (total + m.data.length) := by
      simp [CentralizedNetwork.linkTransferred, hq, hlimit]
    have hsurplus : surplus s.network (.emptying a i total) = m.data.length := by simp [surplus, hq, hlimit]
    simp only [Counts, recordAll, List.foldl_cons, List.foldl_nil, RecordedNetwork.record, hlink, hsurplus, Option.getD_some]
    have hcount : s.totalTransferred + total = tickBytes tr + d := h.1
    change s.totalTransferred + (total + m.data.length) = tickBytes tr + (d + m.data.length)
    omega
  | @passes a i total m rest hq hlimit =>
    have hsize : ¬ s.network.linkLimit.toNat < m.data.length := by omega
    have hlink : s.network.linkTransferred i total = none := by
      simp [CentralizedNetwork.linkTransferred, hq, hsize, hlimit]
    have hsurplus : surplus s.network (.emptying a i total) = 0 := by simp [surplus, hq, hsize, hlimit]
    simp only [Counts, recordAll, List.foldl_cons, List.foldl_nil, RecordedNetwork.record, hlink, hsurplus, Option.getD_none]
    have hcount : s.totalTransferred + total = tickBytes tr + d := h.1
    refine ⟨?_, hlimit⟩
    change s.totalTransferred + 0 + (total + m.data.length) = tickBytes tr + m.data.length + (d + 0)
    omega
  | @nobody a i total m hf =>
    obtain ⟨hcount, hlimit⟩ := h
    refine ⟨?_, hlimit⟩
    change s.totalTransferred + total = (m.data.length + tickBytes tr) + d
    omega
  | @delivers a i j total m hf =>
    obtain ⟨hcount, hlimit⟩ := h
    refine ⟨?_, hlimit⟩
    change s.totalTransferred + total = (m.data.length + tickBytes tr) + d
    omega
  | hands => exact h
  | takes => exact h
  | handsBack => exact h
  | sends => exact h
  | ends => exact absurd rfl hμ

/-- A loop whose messages fit stops at none, and they fit as it goes on. -/
theorem fitting_proceeds (h : Fitting w μ) (hg : Proceeds Γ ch w μ ran w' μ') :
    surplus w μ = 0 ∧ (Fitting w' μ' ∨ ∃ a i, μ' = .emptying a i 0) := by
  have hturn : ∀ {w : CentralizedNetwork N} {b : UInt32} {i : Fin N} {calls : List (NetworkCall N)},
      Fitting w (inTurn b i calls) ∨ ∃ a j, inTurn b i calls = .emptying a j 0 := by
    intro w b i calls
    cases calls with
    | nil => exact Or.inr ⟨b, i, rfl⟩
    | cons x calls => exact Or.inl trivial
  cases hg with
  | ticks | leaves => exact ⟨rfl, hturn⟩
  | empty hq => exact ⟨by simp [surplus, hq], Or.inl trivial⟩
  | drops hq hsize =>
    simp only [Fitting, hq, bytes_cons] at h
    omega
  | exceeds hq hsize hlimit =>
    simp only [Fitting, hq, bytes_cons] at h
    omega
  | @passes a i total m rest hq hlimit =>
    have hsize : ¬ w.linkLimit.toNat < m.data.length := by omega
    refine ⟨by simp [surplus, hq, hsize, hlimit], Or.inl ?_⟩
    simp only [Fitting, hq, bytes_cons] at h
    simp only [Fitting, CentralizedNetwork.applications_setApplication_self, unqueueOut_outqueue, hq, List.tail_cons]
    exact (Nat.add_assoc _ _ _).trans_le h
  | takes =>
    refine ⟨rfl, Or.inl ?_⟩
    simp only [Fitting, outqueue_of_recv]
    exact h
  | nobody | delivers | hands => exact ⟨rfl, Or.inl h⟩
  | _ => exact ⟨rfl, Or.inl trivial⟩

/-- A loop whose messages do not fit comes to one that does not. -/
theorem not_fitting_proceeds (h : ¬ Fitting w μ) (hnet : s.network = w) (hcounts : Counts s tr d μ)
    (hg : Proceeds Γ ch w μ ran w' μ') : 0 < surplus w μ ∨ ¬ Fitting w' μ' := by
  subst hnet
  cases hg with
  | empty hq =>
    simp only [Fitting, hq, bytes_nil] at h
    exact absurd hcounts.2 h
  | drops hq hsize =>
    refine Or.inl ?_
    simp only [surplus, hq, hsize, true_or, if_true]
    omega
  | exceeds hq hsize hlimit =>
    refine Or.inl ?_
    have hle : _ ≤ s.network.linkLimit.toNat := hcounts.2
    simp only [surplus, hq, hlimit, or_true, if_true]
    omega
  | passes hq hlimit =>
    refine Or.inr ?_
    simp only [Fitting, hq, bytes_cons] at h
    simp only [Fitting, CentralizedNetwork.applications_setApplication_self, unqueueOut_outqueue, hq, List.tail_cons]
    exact fun hfits => h ((Nat.add_assoc _ _ _).symm.trans_le hfits)
  | takes =>
    refine Or.inr ?_
    simp only [Fitting, outqueue_of_recv]
    exact h
  | nobody | delivers | hands => exact Or.inr h
  | _ => exact absurd trivial h

variable {config : Fin N → Config} {key : Fin N → KademliaKey} {offset : Fin N → Time} {limit : UInt32}

/-- Where a network with its transcript is, and the surplus that the tick has counted. -/
structure Counted (m : RecordedConfig N) (d : Nat) (μ : Moment N) : Prop where
  stack : m.stack = μ.stack
  fits : μ.Fits m.state.network
  counts : Counts m.state m.trace d μ

/-- What a step counts: the surplus of the moment, and the record of the tick when it ends. -/
theorem Counted.step (h : Counted m d μ) (hs : Step (recordedProgram Γ N) m l m') : ∃ ch ran μ' d', Counted m' d' μ' ∧
    Proceeds Γ ch m.state.network μ ran m'.state.network μ' ∧
    ((μ ≠ .finish ∧ d' = d + surplus m.state.network μ ∧ m'.state.records = m.state.records ∧
        bytesPassed m'.trace = bytesPassed m.trace) ∨
      (μ = .finish ∧ d' = 0 ∧ (m'.state.records.map (·.2)) = (tickBytes m.trace + d) :: m.state.records.map (·.2) ∧
        bytesPassed m'.trace = tickBytes m.trace :: bytesPassed m.trace)) := by
  obtain ⟨hnet, hstate⟩ := step_forget hs
  obtain ⟨ch, ran, μ', hstack', hfits', htrace', hg⟩ := proceeds_of_step (m := m.forget) h.fits h.stack hnet
  have hst := hstate ran ch htrace'
  have htr : m'.trace = ran.map (fun x => (x, ch)) ++ m.trace := htrace'
  by_cases hμ : μ = .finish
  · subst hμ
    obtain ⟨rfl, -, rfl⟩ := hg.finish
    have hcount : m.state.totalTransferred = tickBytes m.trace + d := h.counts
    refine ⟨ch, _, _, 0, ⟨hstack', hfits', ?_⟩, hg, Or.inr ⟨rfl, rfl, ?_, ?_⟩⟩
    · rw [htr]
      exact ⟨rfl, rfl⟩
    · rw [hst, ← hcount]
      rfl
    · rw [htr]
      rfl
  · obtain ⟨hrecords, hbytes⟩ : (recordAll m.state ran).records = m.state.records ∧
        bytesPassed (ran.map (fun x => (x, ch)) ++ m.trace) = bytesPassed m.trace := records_proceeds hg hμ
    refine ⟨ch, ran, μ', _, ⟨hstack', hfits', ?_⟩, hg, Or.inl ⟨hμ, rfl, ?_, ?_⟩⟩
    · rw [htr, hst]
      exact counts_proceeds h.counts rfl hg hμ
    · rw [hst]
      exact hrecords
    · rw [htr]
      exact hbytes

theorem counted_start : Counted (startRecorded config key offset limit) 0 (.between []) :=
  ⟨rfl, fun _ h => absurd h List.not_mem_nil, rfl, rfl⟩

/-- When the messages of every turn fit the limit, there is no surplus, and the records are right. -/
theorem exact_of_run (h : Run (recordedProgram Γ N) withinLimit (startRecorded config key offset limit) m) :
    ∃ μ, Counted m 0 μ ∧ (Fitting m.state.network μ ∨ ∃ a i, μ = .emptying a i 0) ∧
      m.state.records.map (·.2) = bytesPassed m.trace := by
  refine h.invariant (I := fun m => ∃ μ, Counted m 0 μ ∧ (Fitting m.state.network μ ∨ ∃ a i, μ = .emptying a i 0) ∧
    m.state.records.map (·.2) = bytesPassed m.trace) ⟨.between [], counted_start, Or.inl trivial, rfl⟩ ?_
  rintro m l m' - ⟨μ, hc, hfit, hrecords⟩ hok hs
  have hfit' : Fitting m.state.network μ := by
    rcases hfit with hfit | ⟨a, i, rfl⟩
    · exact hfit
    · exact (Nat.zero_add _).trans_le (hok i _ hc.stack)
  obtain ⟨ch, ran, μ', d', hc', hg, hcase⟩ := hc.step hs
  obtain ⟨hnone, hnext⟩ := fitting_proceeds hfit' hg
  rcases hcase with ⟨-, rfl, hr, hb⟩ | ⟨rfl, rfl, hr, hb⟩
  · rw [hnone] at hc'
    exact ⟨μ', hc', hnext, by rw [hr, hb, hrecords]⟩
  · exact ⟨μ', hc', hnext, by rw [hr, hb, hrecords, Nat.add_zero]⟩

/-- Either the messages of every turn fit the limit, or a record is wrong, or will be when the tick ends. -/
theorem fits_or_wrong (h : Run (recordedProgram Γ N) anyStep (startRecorded config key offset limit) m) :
    ∃ μ d, Counted m d μ ∧ (Run (recordedProgram Γ N) withinLimit (startRecorded config key offset limit) m ∨
      m.state.records.map (·.2) ≠ bytesPassed m.trace ∨ 0 < d ∨ ¬ Fitting m.state.network μ) := by
  refine h.invariant (I := fun m => ∃ μ d, Counted m d μ ∧
    (Run (recordedProgram Γ N) withinLimit (startRecorded config key offset limit) m ∨
      m.state.records.map (·.2) ≠ bytesPassed m.trace ∨ 0 < d ∨ ¬ Fitting m.state.network μ))
    ⟨.between [], 0, counted_start, Or.inl .refl⟩ ?_
  rintro m l m' - ⟨μ, d, hc, hcase⟩ - hs
  obtain ⟨ch, ran, μ', d', hc', hg, hstep⟩ := hc.step hs
  refine ⟨μ', d', hc', ?_⟩
  by_cases hok : Run (recordedProgram Γ N) withinLimit (startRecorded config key offset limit) m ∧ withinLimit m l
  · exact Or.inl (hok.1.step hok.2 hs.step_eq)
  · right
    have hwrong : m.state.records.map (·.2) ≠ bytesPassed m.trace ∨ 0 < d ∨ ¬ Fitting m.state.network μ := by
      rcases hcase with hrun | hwrong
      · have hover : ¬ withinLimit m l := fun h => hok ⟨hrun, h⟩
        simp only [withinLimit, not_forall] at hover
        obtain ⟨i, rest, hhead, hbytes⟩ := hover
        obtain ⟨a, rfl⟩ := emptying_of_head hc.fits (hc.stack.symm.trans hhead)
        exact Or.inr (Or.inr (fun hfit => hbytes ((Nat.zero_add _).symm.trans_le hfit)))
      · exact hwrong
    rcases hstep with ⟨-, rfl, hr, hb⟩ | ⟨rfl, rfl, hr, hb⟩
    · rw [hr, hb]
      rcases hwrong with hwrong | hpos | hfit
      · exact Or.inl hwrong
      · exact Or.inr (Or.inl (by omega))
      · rcases not_fitting_proceeds hfit rfl hc.counts hg with hpos | hfit'
        · exact Or.inr (Or.inl (by omega))
        · exact Or.inr (Or.inr hfit')
    · rw [hr, hb]
      refine Or.inl (fun heq => ?_)
      obtain ⟨hhead, htail⟩ := List.cons.inj heq
      rcases hwrong with hwrong | hpos | hfit
      · exact hwrong htail
      · omega
      · exact hfit trivial

theorem sum_bytesPassed : (bytesPassed tr).sum + tickBytes tr = bytes (passed (tr.map (·.1))) := by
  induction tr with
  | nil => rfl
  | cons e tr ih =>
    obtain ⟨x, ch⟩ := e
    have hpassed : passed (((x, ch) :: tr).map (·.1)) = passed [x] ++ passed (tr.map (·.1)) := by simp [passed]
    rw [hpassed, bytes_append, ← ih]
    by_cases hx : x = .endTick
    · subst hx
      simp [bytesPassed, tickBytes, passed]
      omega
    · rw [tickBytes_cons hx, bytesPassed_cons hx]
      omega

end AccountingAux

open AccountingAux

/-- The records of a run of ticks are the bytes that each of them passed along if and only if the messages of every turn fit the
limit. Then they sum to the bytes of all messages that were passed along, each counted once. -/
theorem bandwidth_recorded {Γ : Ctx} {config : Fin N → Config} {key : Fin N → KademliaKey} {offset : Fin N → Time}
    {limit : UInt32} {m : RecordedConfig N}
    (h : Run (recordedProgram Γ N) anyStep (startRecorded config key offset limit) m) (hidle : m.stack = []) :
    (m.state.records.map (·.2) = bytesPassed m.trace ↔
      Run (recordedProgram Γ N) withinLimit (startRecorded config key offset limit) m) ∧
    (Run (recordedProgram Γ N) withinLimit (startRecorded config key offset limit) m →
      (m.state.records.map (·.2)).sum = bytes (passed (m.trace.map (·.1)))) := by
  have hexact : Run (recordedProgram Γ N) withinLimit (startRecorded config key offset limit) m →
      m.state.records.map (·.2) = bytesPassed m.trace := by
    intro hfits
    obtain ⟨μ, -, -, hrecords⟩ := exact_of_run hfits
    exact hrecords
  obtain ⟨μ, d, hc, hcase⟩ := fits_or_wrong h
  obtain rfl : μ = .between [] := eq_between_of_nil (hc.stack.symm.trans hidle)
  obtain ⟨hnone, rfl⟩ : tickBytes m.trace = 0 ∧ d = 0 := hc.counts
  refine ⟨⟨fun hrecords => ?_, hexact⟩, fun hfits => ?_⟩
  · rcases hcase with hfits | hwrong | hpos | hfit
    · exact hfits
    · exact absurd hrecords hwrong
    · omega
    · exact absurd trivial hfit
  · rw [hexact hfits, ← sum_bytesPassed, hnone, Nat.add_zero]

/-- A node that joined sends two pings, which a tick takes. -/
def pingsInOneTick {N : Nat} (i : Fin N) : List (NetworkLabel N) :=
  [.enter (.add i)] ++ networkRuns 5 1 9 ++ [.enter (.app i (.ping 7 .empty))] ++ networkRuns 0 19 2 ++
    [.enter (.app i (.ping 8 .empty))] ++ networkRuns 0 31 2 ++ [.enter .tick]

/-- With a limit of 64 bytes the tick passes both pings along and reports their 42 bytes. -/
theorem bandwidth_recorded_sample : ∃ m : RecordedConfig 1, m.stack = [] ∧ m.state.records = [(0, 42)] ∧
    Run (recordedProgram .reference 1) withinLimit
      (startRecorded (fun _ => ⟨20, 10000, 1000⟩) (fun _ => .starting 0) (fun _ => 700) 64) m ∧
    bytes (passed (m.trace.map (·.1))) = 42 := by
  obtain ⟨m, hr, hm⟩ := exists_run_of_follow (recordedProgram .reference 1) (fun _ _ => true)
    (startRecorded (fun _ => ⟨20, 10000, 1000⟩) (fun _ => .starting 0) (fun _ => 700) 64)
    (pingsInOneTick 0 ++ networkRuns 0 40 18)
    (fun m : RecordedConfig 1 => decide (m.stack = []) && decide (m.state.records = [(0, 42)]) &&
      decide (bytesPassed m.trace = [42])) (by decide +kernel)
  simp only [Bool.and_eq_true, decide_eq_true_eq] at hm
  obtain ⟨⟨hidle, hrecords⟩, hbytes⟩ := hm
  obtain ⟨hiff, hsum⟩ := bandwidth_recorded (run_anyStep hr) hidle
  have hfits := hiff.1 (by rw [hrecords, hbytes]; rfl)
  refine ⟨m, hidle, hrecords, hfits, ?_⟩
  rw [← hsum hfits, hrecords]
  rfl

/-- With a limit of 40 bytes the second ping is put back, and its bytes are counted all the same. -/
theorem bandwidth_recorded_false : ∃ m : RecordedConfig 1, Run (recordedProgram .reference 1) anyStep
      (startRecorded (fun _ => ⟨20, 10000, 1000⟩) (fun _ => .starting 0) (fun _ => 700) 40) m ∧ m.stack = [] ∧
    m.state.records.map (·.2) = [42] ∧ bytesPassed m.trace = [21] := by
  obtain ⟨m, hr, hm⟩ := exists_run_of_follow (recordedProgram .reference 1) (fun _ _ => true)
    (startRecorded (fun _ => ⟨20, 10000, 1000⟩) (fun _ => .starting 0) (fun _ => 700) 40)
    (pingsInOneTick 0 ++ networkRuns 0 40 18)
    (fun m : RecordedConfig 1 => decide (m.stack = []) && decide (m.state.records.map (·.2) = [42]) &&
      decide (bytesPassed m.trace = [21])) (by decide +kernel)
  simp only [Bool.and_eq_true, decide_eq_true_eq] at hm
  exact ⟨m, run_anyStep hr, hm.1.1, hm.1.2, hm.2⟩

end Dhtsim
