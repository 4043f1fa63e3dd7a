import Dhtsim.Model.Plots
import Dhtsim.Theorems.Fetches

/-!
# What is plotted

A transcript that was printed is read back as it is (`transcript_read`), and of any text only what it says (`records_read`). So what
is read of the output of a run are the records of its network, and as many successes and failures as lambdas of fetches ran
(`run_read`).
-/

namespace Dhtsim

open CallMachine Pattern

/-- What a line is to tell its reader. -/
def Line.bandwidth : Line → Option (Nat × Nat)
  | .transferred epoch totalTransferred => some (epoch.toNat, totalTransferred)
  | _ => none

def Line.success : Line → Option Nat
  | .found _ _ latency => some latency.toNat
  | _ => none

def Line.failure : Line → Option Nat
  | .failed _ _ latency => some latency.toNat
  | _ => none

/-- The digits of a number. -/
def IsNumber (digits : List Char) : Prop := digits ≠ [] ∧ ∀ c ∈ digits, isDecimal c = true

namespace PlotsAux

variable {text line : List Char} {lines : List Line} {n k e : Nat}

/-! ## Lines -/

/-- A line ends where its end is. -/
theorem textLines_line (hline : '\n' ∉ line) (text : List Char) :
    textLines (line ++ '\n' :: text) = (line ++ ['\n']) :: textLines text := by
  induction line with
  | nil => rfl
  | cons c line ih =>
    obtain ⟨hc, hline⟩ := not_or.1 (mt List.mem_cons.2 hline)
    rw [List.cons_append, textLines, if_neg (fun h => hc h.symm), ih hline]
    rfl

/-- A text without `\r` is read as it is. -/
theorem universalNewlines_eq (h : '\r' ∉ text) : universalNewlines false text = text := by
  induction text with
  | nil => rfl
  | cons c text ih =>
    obtain ⟨hc, htext⟩ := not_or.1 (mt List.mem_cons.2 h)
    rw [universalNewlines, if_neg (fun h => hc h.symm), if_neg (fun h => Bool.false_ne_true h.2), ih htext]

/-- What is printed for a line is digits, blanks and the letters in front. -/
theorem not_mem_toChars {c : Char} (hdigit : c.isDigit = false) (hletter : c ∉ "[E] TRSF".toList) (l : Line) : c ∉ l.toChars := by
  have happend : ∀ {s s' : List Char}, c ∉ s → c ∉ s' → c ∉ s ++ s' :=
    fun h h' hmem => (List.mem_append.1 hmem).elim h h'
  have hdigits : ∀ n : Nat, c ∉ Nat.toDigits 10 n := by
    intro n h
    exact Bool.noConfusion (hdigit.symm.trans (Nat.isDigit_of_mem_toDigits (by decide) (by decide) h))
  have htag : ∀ {s : List Char}, s ⊆ "[E] TRSF".toList → c ∉ s := fun h hmem => hletter (h hmem)
  have hspace : ∀ {s : List Char}, c ∉ s → c ∉ ' ' :: s :=
    fun h hmem => (List.mem_cons.1 hmem).elim (fun hc => hletter (hc ▸ by decide)) h
  cases l with
  | transferred epoch total => exact happend (htag (by decide)) (happend (hdigits _) (hspace (hdigits _)))
  | replaced nodeIndex => exact happend (htag (by decide)) (hdigits _)
  | found nodeIndex target latency | failed nodeIndex target latency =>
    exact happend (htag (by decide)) (happend (hdigits _) (hspace (happend (hdigits _) (hspace (hdigits _)))))

theorem textLines_printed (lines : List Line) : textLines (printed lines) = lines.map (fun l => l.toChars ++ ['\n']) := by
  induction lines with
  | nil => rfl
  | cons l lines ih =>
    rw [printed, List.flatMap_cons, List.append_assoc, List.singleton_append,
      textLines_line (not_mem_toChars (by decide) (by decide) l)]
    exact congrArg _ ih

/-- What is printed for a line is one line. -/
theorem fileLines_printed (lines : List Line) : fileLines (printed lines) = lines.map (fun l => l.toChars ++ ['\n']) := by
  have hreturn : '\r' ∉ printed lines := by
    intro h
    obtain ⟨l, -, hl⟩ := List.mem_flatMap.1 h
    rcases List.mem_append.1 hl with hl | hl
    · exact not_mem_toChars (by decide) (by decide) l hl
    · exact absurd hl (by decide)
  rw [fileLines, universalNewlines_eq hreturn]
  exact textLines_printed lines

/-! ## Numbers -/

/-- The digits that are printed are decimal digits, each of its value. -/
theorem decimal_of_isDigit {c : Char} (h : c.isDigit = true) : decimal c = some (c.toNat - '0'.toNat) := by
  have hrange : 0x30 ≤ c.toNat ∧ c.toNat < 0x30 + 10 := by
    simp only [Char.isDigit, Bool.and_eq_true, decide_eq_true_eq] at h
    obtain ⟨h₁, h₂⟩ := h
    rw [ge_iff_le, UInt32.le_iff_toNat_le] at h₁
    rw [UInt32.le_iff_toNat_le] at h₂
    exact ⟨h₁, Nat.lt_succ_of_le h₂⟩
  rw [decimal, zeros, List.find?_cons_of_pos (by simpa using hrange)]
  rfl

theorem isDecimal_of_isDigit (c : Char) (h : c.isDigit = true) : isDecimal c = true :=
  congrArg Option.isSome (decimal_of_isDigit h)

/-- A number that was printed is the number that is read. -/
theorem int_toDigits (n : Nat) : int (Nat.toDigits 10 n) = n := by
  refine Eq.trans ?_ (Nat.ofDigitChars_ten_toDigits (n := n))
  refine List.foldl_ext _ _ _ (fun k c hc => ?_)
  rw [decimal_of_isDigit (Nat.isDigit_of_mem_toDigits (by decide) (by decide) hc)]
  rfl

/-! ## One line -/

theorem stops_newline : Stops isDecimal ['\n'] := by
  intro c hc
  cases hc
  decide

/-- A line `[E] T`. -/
theorem read_bwline (epoch : Time) (total : Nat) : read isDecimal bwline ((Line.transferred epoch total).toChars ++ ['\n']) =
    some [Nat.toDigits 10 epoch.toNat, Nat.toDigits 10 total] := by
  refine read_of_fits ?_ (by decide) stops_newline
  have hlast : Fits isDecimal [.number true] (Nat.toDigits 10 total ++ []) _ := Fits.nil.decimal isDecimal_of_isDigit total
  rw [List.append_nil] at hlast
  exact ((hlast.char (c := ' ')).decimal isDecimal_of_isDigit epoch.toNat).literal "[E] T ".toList

theorem separated_outcome (tag : List Char) :
    Separated isDecimal (literal tag ++ [.number false, .char ' ', .number false, .char ' ', .number true]) = true := by
  induction tag with
  | nil => rfl
  | cons c tag ih => exact ih

/-- A line `[E] S` or `[E] F`. -/
theorem read_outcome (tag : List Char) (nodeIndex target latency : Nat) :
    read isDecimal (literal tag ++ [.number false, .char ' ', .number false, .char ' ', .number true])
      (tag ++ (Nat.toDigits 10 nodeIndex ++ (' ' :: (Nat.toDigits 10 target ++ (' ' :: Nat.toDigits 10 latency)))) ++ ['\n']) =
      some [Nat.toDigits 10 latency] := by
  refine read_of_fits ?_ (separated_outcome tag) stops_newline
  have hlast : Fits isDecimal [.number true] (Nat.toDigits 10 latency ++ []) _ := Fits.nil.decimal isDecimal_of_isDigit latency
  rw [List.append_nil] at hlast
  have htarget : Fits isDecimal [.number false, .char ' ', .number true] _ _ :=
    (hlast.char (c := ' ')).decimal isDecimal_of_isDigit target
  exact ((htarget.char (c := ' ')).decimal isDecimal_of_isDigit nodeIndex).literal tag

theorem groupInt_toDigits (n : Nat) (rest : List (List Char)) : groupInt (Nat.toDigits 10 n :: rest) 1 = n :=
  int_toDigits n

/-- A line is read as what it tells. -/
theorem read_line (l : Line) :
    (read isDecimal bwline (l.toChars ++ ['\n'])).map (fun m => (groupInt m 1, groupInt m 2)) = l.bandwidth ∧
      (read isDecimal sucline (l.toChars ++ ['\n'])).map (fun m => groupInt m 1) = l.success ∧
      (read isDecimal failine (l.toChars ++ ['\n'])).map (fun m => groupInt m 1) = l.failure := by
  -- The patterns of the other lines have another letter.
  have hother : ∀ {tag tag' : String} {p : List Piece} (s : List Char), tag.toList.length = tag'.toList.length →
      tag.toList ≠ tag'.toList → read isDecimal (literal tag.toList ++ p) (tag'.toList ++ s ++ ['\n']) = none := by
    intro tag tag' p s hlength hne
    rw [List.append_assoc]
    exact read_literal_eq_none hlength hne _
  cases l with
  | transferred epoch total =>
    have hsuc : read isDecimal sucline ((Line.transferred epoch total).toChars ++ ['\n']) = none :=
      hother _ (by decide) (by decide)
    have hfai : read isDecimal failine ((Line.transferred epoch total).toChars ++ ['\n']) = none :=
      hother _ (by decide) (by decide)
    rw [read_bwline, hsuc, hfai]
    refine ⟨?_, rfl, rfl⟩
    rw [Option.map_some, groupInt_toDigits]
    exact congrArg (fun b => some (epoch.toNat, b)) (int_toDigits total)
  | replaced nodeIndex =>
    have hbw : read isDecimal bwline ((Line.replaced nodeIndex).toChars ++ ['\n']) = none :=
      hother _ (by decide) (by decide)
    have hsuc : read isDecimal sucline ((Line.replaced nodeIndex).toChars ++ ['\n']) = none :=
      hother _ (by decide) (by decide)
    have hfai : read isDecimal failine ((Line.replaced nodeIndex).toChars ++ ['\n']) = none :=
      hother _ (by decide) (by decide)
    rw [hbw, hsuc, hfai]
    exact ⟨rfl, rfl, rfl⟩
  | found nodeIndex target latency =>
    have hbw : read isDecimal bwline ((Line.found nodeIndex target latency).toChars ++ ['\n']) = none :=
      hother _ (by decide) (by decide)
    have hsuc : read isDecimal sucline ((Line.found nodeIndex target latency).toChars ++ ['\n']) = _ :=
      read_outcome _ _ _ _
    have hfai : read isDecimal failine ((Line.found nodeIndex target latency).toChars ++ ['\n']) = none :=
      hother _ (by decide) (by decide)
    rw [hbw, hsuc, hfai]
    exact ⟨rfl, congrArg some (groupInt_toDigits _ _), rfl⟩
  | failed nodeIndex target latency =>
    have hbw : read isDecimal bwline ((Line.failed nodeIndex target latency).toChars ++ ['\n']) = none :=
      hother _ (by decide) (by decide)
    have hsuc : read isDecimal sucline ((Line.failed nodeIndex target latency).toChars ++ ['\n']) = none :=
      hother _ (by decide) (by decide)
    have hfai : read isDecimal failine ((Line.failed nodeIndex target latency).toChars ++ ['\n']) = _ :=
      read_outcome _ _ _ _
    rw [hbw, hsuc, hfai]
    exact ⟨rfl, rfl, congrArg some (groupInt_toDigits _ _)⟩

/-- What is read of a text is read of its lines. -/
theorem readTranscript_eq (text : List Char) : readTranscript text =
    ⟨(fileLines text).filterMap (fun line => (read isDecimal bwline line).map (fun m => (groupInt m 1, groupInt m 2))),
      (fileLines text).filterMap (fun line => (read isDecimal sucline line).map (fun m => groupInt m 1)),
      (fileLines text).filterMap (fun line => (read isDecimal failine line).map (fun m => groupInt m 1))⟩ := by
  have hline : ∀ (r : Records) (line : List Char), readLine r line =
      ⟨r.bws ++ ((read isDecimal bwline line).map (fun m => (groupInt m 1, groupInt m 2))).toList,
        r.succs ++ ((read isDecimal sucline line).map (fun m => groupInt m 1)).toList,
        r.fails ++ ((read isDecimal failine line).map (fun m => groupInt m 1)).toList⟩ := by
    intro r line
    unfold readLine
    cases read isDecimal bwline line <;> cases read isDecimal sucline line <;> cases read isDecimal failine line <;> simp
  have hcons : ∀ {α : Type} (f : List Char → Option α) (l : List Char) (lines : List (List Char)),
      (l :: lines).filterMap f = (f l).toList ++ lines.filterMap f := by
    intro α f l lines
    cases h : f l with
    | none => exact List.filterMap_cons_none h
    | some a => exact List.filterMap_cons_some h
  have hfold : ∀ (lines : List (List Char)) (r : Records), lines.foldl readLine r =
      ⟨r.bws ++ lines.filterMap (fun line => (read isDecimal bwline line).map (fun m => (groupInt m 1, groupInt m 2))),
        r.succs ++ lines.filterMap (fun line => (read isDecimal sucline line).map (fun m => groupInt m 1)),
        r.fails ++ lines.filterMap (fun line => (read isDecimal failine line).map (fun m => groupInt m 1))⟩ := by
    intro lines
    induction lines with
    | nil => simp
    | cons line lines ih =>
      intro r
      rw [List.foldl_cons, ih, hline, hcons, hcons, hcons, List.append_assoc, List.append_assoc, List.append_assoc]
  exact hfold _ _

theorem read_printed (lines : List Line) : readTranscript (printed lines) =
    ⟨lines.filterMap Line.bandwidth, lines.filterMap Line.success, lines.filterMap Line.failure⟩ := by
  rw [readTranscript_eq, fileLines_printed, List.filterMap_map, List.filterMap_map, List.filterMap_map]
  have hbw := List.filterMap_congr (l := lines) (fun l _ => (read_line l).1)
  have hsuc := List.filterMap_congr (l := lines) (fun l _ => (read_line l).2.1)
  have hfai := List.filterMap_congr (l := lines) (fun l _ => (read_line l).2.2)
  rw [← hbw, ← hsuc, ← hfai]
  rfl

/-! ## Any text -/

theorem fits_number {group : Bool} {p : List Piece} {text : List Char} {groups : List (List Char)} :
    Fits isDecimal (.number group :: p) text groups ↔ ∃ digits s rest, IsNumber digits ∧ text = digits ++ s ∧ Fits isDecimal p s rest ∧
      groups = capture group digits rest := by
  constructor
  · intro h
    cases h with
    | number hne hdigits h => exact ⟨_, _, _, ⟨hne, hdigits⟩, rfl, h, rfl⟩
  · rintro ⟨digits, s, rest, ⟨hne, hdigits⟩, rfl, h, rfl⟩
    exact .number hne hdigits h

theorem fits_space {p : List Piece} {text : List Char} {groups : List (List Char)} :
    Fits isDecimal (.char ' ' :: p) text groups ↔ ∃ s, text = ' ' :: s ∧ Fits isDecimal p s groups := by
  constructor
  · intro h
    cases h with
    | char h => exact ⟨_, rfl, h⟩
  · rintro ⟨s, rfl, h⟩
    exact .char h

theorem fits_nil {text : List Char} {groups : List (List Char)} : Fits isDecimal [] text groups ↔ text = [] ∧ groups = [] := by
  constructor
  · intro h
    cases h
    exact ⟨rfl, rfl⟩
  · rintro ⟨rfl, rfl⟩
    exact .nil

theorem endsInNumber_literal (l : List Char) {p : List Piece} (h : EndsInNumber p = true) :
    EndsInNumber (literal l ++ p) = true := by
  induction l with
  | nil => exact h
  | cons c l ih => exact ih

/-- Where a line `[E] T` is read. -/
theorem read_bwline_iff {line : List Char} {m : List (List Char)} :
    read isDecimal bwline line = some m ↔ ∃ x y rest, IsNumber x ∧ IsNumber y ∧ Stops isDecimal rest ∧
      line = "[E] T ".toList ++ (x ++ (' ' :: y)) ++ rest ∧ m = [x, y] := by
  rw [read_eq_some_iff (by decide) (by decide)]
  constructor
  · rintro ⟨text, rest, rfl, hfits, hstops⟩
    obtain ⟨s₁, rfl, h₁⟩ := fits_literal.1 hfits
    obtain ⟨x, s₂, gs, hx, rfl, h₂, rfl⟩ := fits_number.1 h₁
    obtain ⟨s₃, rfl, h₃⟩ := fits_space.1 h₂
    obtain ⟨y, s₄, gs, hy, rfl, h₄, rfl⟩ := fits_number.1 h₃
    obtain ⟨rfl, rfl⟩ := fits_nil.1 h₄
    rw [List.append_nil]
    exact ⟨x, y, rest, hx, hy, hstops, rfl, rfl⟩
  · rintro ⟨x, y, rest, hx, hy, hstops, rfl, rfl⟩
    refine ⟨_, rest, rfl, fits_literal.2 ⟨_, rfl, fits_number.2 ⟨x, _, [y], hx, rfl, ?_, rfl⟩⟩, hstops⟩
    exact fits_space.2 ⟨y, rfl, fits_number.2 ⟨y, [], [], hy, (List.append_nil y).symm, .nil, rfl⟩⟩

/-- Where a line `[E] S` or `[E] F` is read. -/
theorem read_outcome_iff {tag line : List Char} {m : List (List Char)} :
    read isDecimal (literal tag ++ [.number false, .char ' ', .number false, .char ' ', .number true]) line = some m ↔
      ∃ x y z rest, IsNumber x ∧ IsNumber y ∧ IsNumber z ∧ Stops isDecimal rest ∧
        line = tag ++ (x ++ (' ' :: (y ++ (' ' :: z)))) ++ rest ∧ m = [z] := by
  rw [read_eq_some_iff (separated_outcome tag) (endsInNumber_literal tag rfl)]
  constructor
  · rintro ⟨text, rest, rfl, hfits, hstops⟩
    obtain ⟨s₁, rfl, h₁⟩ := fits_literal.1 hfits
    obtain ⟨x, s₂, gs, hx, rfl, h₂, rfl⟩ := fits_number.1 h₁
    obtain ⟨s₃, rfl, h₃⟩ := fits_space.1 h₂
    obtain ⟨y, s₄, gs, hy, rfl, h₄, rfl⟩ := fits_number.1 h₃
    obtain ⟨s₅, rfl, h₅⟩ := fits_space.1 h₄
    obtain ⟨z, s₆, gs, hz, rfl, h₆, rfl⟩ := fits_number.1 h₅
    obtain ⟨rfl, rfl⟩ := fits_nil.1 h₆
    rw [List.append_nil]
    exact ⟨x, y, z, rest, hx, hy, hz, hstops, rfl, rfl⟩
  · rintro ⟨x, y, z, rest, hx, hy, hz, hstops, rfl, rfl⟩
    refine ⟨_, rest, rfl, fits_literal.2 ⟨_, rfl, fits_number.2 ⟨x, _, [z], hx, rfl, ?_, rfl⟩⟩, hstops⟩
    refine fits_space.2 ⟨_, rfl, fits_number.2 ⟨y, _, [z], hy, rfl, ?_, rfl⟩⟩
    exact fits_space.2 ⟨z, rfl, fits_number.2 ⟨z, [], [], hz, (List.append_nil z).symm, .nil, rfl⟩⟩

/-! ## The output of a run -/

variable {N : Nat} {Γ : Ctx} {D : Durations} {nNodes : Nat} {config : Config} {key : Fin N → KademliaKey} {offset : Fin N → Time}
  {limit : UInt32} {m : ExperimentConfig N} {ok : ExperimentConfig N → ExperimentLabel N → Prop}

/-- The records of the network are those of the transcript. -/
theorem bandwidth_of_run (h : Run (experimentProgram Γ D N) ok (startExperiment config key offset limit nNodes) m) :
    m.state.2.transcript.filterMap Line.bandwidth = m.state.1.records.map (fun r => (r.1.toNat, r.2)) := by
  refine h.invariant (I := fun m : ExperimentConfig N =>
    m.state.2.transcript.filterMap Line.bandwidth = m.state.1.records.map (fun r => (r.1.toNat, r.2))) rfl ?_
  intro m l m' hr hI ho hs
  have hr' := hr.step ho hs.step_eq
  cases hs with
  | @run r c rest s tr s' cs hw he =>
    cases c with
    | own d =>
      obtain ⟨t, xs, ds, hexec, rfl, rfl⟩ := ExperimentAux.exec_own he
      have hlines : t.transcript.filterMap Line.bandwidth = s.2.transcript.filterMap Line.bandwidth := by
        rcases (FetchesAux.books_of_own hexec).2 with h | ⟨v, h⟩
        · rw [h]
        · rw [h]
          exact List.filterMap_cons_none rfl
      exact hlines.trans hI
    | enter x =>
      obtain ⟨-, hp⟩ := Option.ite_none_right_eq_some.1 he
      cases hp
      exact hI
    | inside x =>
      rcases ExperimentAux.exec_inside he with ⟨huser, rfl, rfl⟩ | ⟨w, xs, hw, rfl, rfl⟩
      · exact hI
      have hrecords : x ≠ .endTick → (s.1.record x).records = s.1.records := by
        intro hx
        cases x with
        | endTick => exact absurd rfl hx
        | _ => rfl
      rcases FetchesAux.outcome_cases hr' with ⟨i, k, v, f, rfl, -, -, hwatch⟩ | ⟨-, ⟨rfl, hwatch⟩ | ⟨hend, hwatch⟩⟩
      · have hnone : (f.line v (s.1.network.epoch - f.now)).bandwidth = none := by
          unfold Fetch.line
          split <;> rfl
        have htranscript := congrArg (fun t => t.transcript.filterMap Line.bandwidth) hwatch
        exact htranscript.trans ((List.filterMap_cons_none hnone).trans hI)
      · exact congrArg (List.cons (s.1.network.epoch.toNat, s.1.totalTransferred)) hI
      · refine (congrArg (fun t => t.transcript.filterMap Line.bandwidth) hwatch).trans (hI.trans ?_)
        exact congrArg _ (hrecords hend).symm
  | event hc => cases hc
  | reentry hf hc => cases hc
  | leave hf => cases hf

/-- The lines that tell of a fetch are those with an outcome. -/
theorem length_filterMap_told {f : Line → Option Nat} (hf : ∀ line, (f line).isSome = true → line.isOutcome = true)
    (lines : List Line) : (lines.filterMap f).length = (told lines).countP (fun p => (f p.1).isSome) := by
  induction lines with
  | nil => rfl
  | cons line lines ih =>
    rw [told]
    split
    · cases hline : f line with
      | none => rw [List.filterMap_cons_none hline, ih, List.countP_cons_of_neg (by simp [hline])]
      | some a => rw [List.filterMap_cons_some hline, List.length_cons, ih, List.countP_cons_of_pos (by simp [hline])]
    · next hno =>
      cases hline : f line with
      | none => rw [List.filterMap_cons_none hline, ih]
      | some a => exact absurd (hf line (by rw [hline]; rfl)) hno

/-- Lines that tell of lambdas count as these do. -/
theorem countP_of_tells {Γ : Ctx} {D : Durations} {m₀ m : ExperimentConfig N} {lines : List (Line × Nat)}
    {os : List (Fin N × UserFn × Option (List UInt8))} {p : Line × Nat → Bool} {q : Fin N × UserFn × Option (List UInt8) → Bool}
    (h : List.Forall₂ (Tells Γ D m₀ m) lines os) (hpq : ∀ line o, Tells Γ D m₀ m line o → p line = q o) :
    lines.countP p = os.countP q := by
  induction h with
  | nil => rfl
  | cons htells _ ih => rw [List.countP_cons, List.countP_cons, ih, hpq _ _ htells]

end PlotsAux

open PlotsAux

/-- Whatever is printed is read back: of each line what it tells, in their order. -/
theorem transcript_read (lines : List Line) : readTranscript (printed lines) =
    ⟨lines.filterMap Line.bandwidth, lines.filterMap Line.success, lines.filterMap Line.failure⟩ := read_printed lines

/-- Of any text only what it says is read, and all of it: each record is at the start of a line, with its letter and its numbers, in
the digits of any script, where the last number is read to its end. -/
theorem records_read (text : List Char) :
    (∀ p, p ∈ (readTranscript text).bws ↔ ∃ line ∈ fileLines text, ∃ x y rest, IsNumber x ∧ IsNumber y ∧ Stops isDecimal rest ∧
      line = "[E] T ".toList ++ (x ++ (' ' :: y)) ++ rest ∧ p = (int x, int y)) ∧
    (∀ n, n ∈ (readTranscript text).succs ↔ ∃ line ∈ fileLines text, ∃ x y z rest, IsNumber x ∧ IsNumber y ∧ IsNumber z ∧
      Stops isDecimal rest ∧ line = "[E] S ".toList ++ (x ++ (' ' :: (y ++ (' ' :: z)))) ++ rest ∧ n = int z) ∧
    ∀ n, n ∈ (readTranscript text).fails ↔ ∃ line ∈ fileLines text, ∃ x y z rest, IsNumber x ∧ IsNumber y ∧ IsNumber z ∧
      Stops isDecimal rest ∧ line = "[E] F ".toList ++ (x ++ (' ' :: (y ++ (' ' :: z)))) ++ rest ∧ n = int z := by
  have houtcome : ∀ (tag : List Char) (n : Nat), (∃ line ∈ fileLines text, (read isDecimal
      (literal tag ++ [.number false, .char ' ', .number false, .char ' ', .number true]) line).map (fun m => groupInt m 1) = some n) ↔
      ∃ line ∈ fileLines text, ∃ x y z rest, IsNumber x ∧ IsNumber y ∧ IsNumber z ∧ Stops isDecimal rest ∧
        line = tag ++ (x ++ (' ' :: (y ++ (' ' :: z)))) ++ rest ∧ n = int z := by
    intro tag n
    refine exists_congr (fun line => and_congr_right (fun _ => ?_))
    rw [Option.map_eq_some_iff]
    constructor
    · rintro ⟨m, hm, rfl⟩
      obtain ⟨x, y, z, rest, hx, hy, hz, hstops, hline, rfl⟩ := read_outcome_iff.1 hm
      exact ⟨x, y, z, rest, hx, hy, hz, hstops, hline, rfl⟩
    · rintro ⟨x, y, z, rest, hx, hy, hz, hstops, hline, rfl⟩
      exact ⟨[z], read_outcome_iff.2 ⟨x, y, z, rest, hx, hy, hz, hstops, hline, rfl⟩, rfl⟩
  rw [readTranscript_eq]
  refine ⟨fun p => ?_, fun n => ?_, fun n => ?_⟩
  · rw [List.mem_filterMap]
    refine exists_congr (fun line => and_congr_right (fun _ => ?_))
    rw [Option.map_eq_some_iff]
    constructor
    · rintro ⟨m, hm, rfl⟩
      obtain ⟨x, y, rest, hx, hy, hstops, hline, rfl⟩ := read_bwline_iff.1 hm
      exact ⟨x, y, rest, hx, hy, hstops, hline, rfl⟩
    · rintro ⟨x, y, rest, hx, hy, hstops, hline, rfl⟩
      exact ⟨[x, y], read_bwline_iff.2 ⟨x, y, rest, hx, hy, hstops, hline, rfl⟩, rfl⟩
  · rw [List.mem_filterMap]
    exact houtcome "[E] S ".toList n
  · rw [List.mem_filterMap]
    exact houtcome "[E] F ".toList n

/-- Lines end at `\r` too, and a digit may be of another script. -/
example : readTranscript "noise\r[E] T \u0663 4\r\n[E] S 1 2 5 [E] F 1 2 6".toList = ⟨[(3, 4)], [5], []⟩ := by decide +kernel

variable {N : Nat} {Γ : Ctx} {D : Durations} {nNodes : Nat} {config : Config} {key : Fin N → KademliaKey} {offset : Fin N → Time}
  {limit : UInt32} {m : ExperimentConfig N}

/-- What is read of the output of a run: the records of the network, a success for each lambda of a fetch that ran with a value, and
a failure for each that ran without. -/
theorem run_read (h : Run (experimentProgram Γ D N) anyStep (startExperiment config key offset limit nNodes) m) :
    (readTranscript (printed m.state.2.transcript.reverse)).bws = m.state.1.records.reverse.map (fun r => (r.1.toNat, r.2)) ∧
      (readTranscript (printed m.state.2.transcript.reverse)).succs.length = (outcomes m).countP (fun o => o.2.2.isSome) ∧
      (readTranscript (printed m.state.2.transcript.reverse)).fails.length = (outcomes m).countP (fun o => o.2.2.isNone) := by
  have htells := (FetchesAux.told_of_run h).lines
  have hline : ∀ line o, Tells Γ D (startExperiment config key offset limit nNodes) m line o → line.1.success.isSome = o.2.2.isSome ∧
      line.1.failure.isSome = o.2.2.isNone := by
    rintro ⟨line, ticks⟩ ⟨i, k, v⟩ ⟨f, since, -, -, -, -, -, hline⟩
    obtain rfl : line = f.line v (UInt64.ofNat (ticks - since)) := hline
    unfold Fetch.line
    cases v <;> exact ⟨rfl, rfl⟩
  rw [read_printed, List.filterMap_reverse, List.filterMap_reverse, List.filterMap_reverse]
  refine ⟨?_, ?_, ?_⟩
  · rw [bandwidth_of_run h, List.map_reverse]
  · rw [List.length_reverse, length_filterMap_told]
    · exact countP_of_tells htells (fun line o h => (hline line o h).1)
    · intro line hsome
      cases line with
      | found n d l => rfl
      | _ => cases hsome
  · rw [List.length_reverse, length_filterMap_told]
    · exact countP_of_tells htells (fun line o h => (hline line o h).2)
    · intro line hsome
      cases line with
      | failed n d l => rfl
      | _ => cases hsome

/-- The output of a run in which node zero gives up. -/
theorem run_read_sample : ∃ m : ExperimentConfig 3, readTranscript (printed m.state.2.transcript.reverse) =
      ⟨[(0, 21), (1, 21), (2, 0), (3, 70), (4, 70), (5, 0), (6, 0), (7, 0)], [], [5]⟩ ∧
    (readTranscript (printed m.state.2.transcript.reverse)).bws = m.state.1.records.reverse.map (fun r => (r.1.toNat, r.2)) ∧
      (readTranscript (printed m.state.2.transcript.reverse)).succs.length = (outcomes m).countP (fun o => o.2.2.isSome) ∧
      (readTranscript (printed m.state.2.transcript.reverse)).fails.length = (outcomes m).countP (fun o => o.2.2.isNone) := by
  obtain ⟨m, h, hm⟩ := exists_run_of_follow (experimentProgram Ctx.reference ⟨1, 2, 9⟩ 3) (fun _ _ => true)
    replaceOne (experimentRuns ⟨1, 0, 1⟩ 5 341) (fun m => decide (readTranscript (printed m.state.2.transcript.reverse) =
      ⟨[(0, 21), (1, 21), (2, 0), (3, 70), (4, 70), (5, 0), (6, 0), (7, 0)], [], [5]⟩)) (by decide +kernel)
  exact ⟨m, of_decide_eq_true hm, run_read (run_anyStep h)⟩

end Dhtsim
