import Dhtsim.Lib.Pattern
import Dhtsim.Model.Experiment

/-!
# Reading a transcript

The text that the program prints on its standard output, and `read_transcript` of `results/plots.py`, which reads it: line by line,
as Python reads a text file, with its patterns and its numbers. The numbers have at most 4300 digits, as `int` takes no more.
-/

namespace Dhtsim

open Pattern

/-- What is printed for a line, before `std::endl`. -/
def Line.toChars : Line → List Char
  | .transferred epoch totalTransferred =>
    "[E] T ".toList ++ (Nat.toDigits 10 epoch.toNat ++ (' ' :: Nat.toDigits 10 totalTransferred))
  | .replaced nodeIndex => "[E] R ".toList ++ Nat.toDigits 10 nodeIndex
  | .found nodeIndex targetDataIndex latency =>
    "[E] S ".toList ++ (Nat.toDigits 10 nodeIndex ++ (' ' :: (Nat.toDigits 10 targetDataIndex ++
      (' ' :: Nat.toDigits 10 latency.toNat))))
  | .failed nodeIndex targetDataIndex latency =>
    "[E] F ".toList ++ (Nat.toDigits 10 nodeIndex ++ (' ' :: (Nat.toDigits 10 targetDataIndex ++
      (' ' :: Nat.toDigits 10 latency.toNat))))

/-- The standard output, for the lines that were printed, the first one first. -/
def printed (lines : List Line) : List Char := lines.flatMap (fun line => line.toChars ++ ['\n'])

/-- What is read of a transcript: `bws`, `succs` and `fails`. -/
structure Records where
  bws : List (Nat × Nat)
  succs : List Nat
  fails : List Nat
deriving DecidableEq

/-- `\[E\] T (\d+) (\d+)`. -/
def bwline : List Piece := literal "[E] T ".toList ++ [.number true, .char ' ', .number true]

/-- `\[E\] S \d+ \d+ (\d+)`. -/
def sucline : List Piece := literal "[E] S ".toList ++ [.number false, .char ' ', .number false, .char ' ', .number true]

/-- `\[E\] F \d+ \d+ (\d+)`. -/
def failine : List Piece := literal "[E] F ".toList ++ [.number false, .char ' ', .number false, .char ' ', .number true]

/-- The zeros of all scripts, as of Unicode 14 (Python 3.11). Behind each stand the other nine digits, in their order. -/
def zeros : List Nat :=
  [0x30, 0x660, 0x6f0, 0x7c0, 0x966, 0x9e6, 0xa66, 0xae6, 0xb66, 0xbe6, 0xc66, 0xce6, 0xd66, 0xde6, 0xe50, 0xed0, 0xf20, 0x1040,
    0x1090, 0x17e0, 0x1810, 0x1946, 0x19d0, 0x1a80, 0x1a90, 0x1b50, 0x1bb0, 0x1c40, 0x1c50, 0xa620, 0xa8d0, 0xa900, 0xa9d0, 0xa9f0,
    0xaa50, 0xabf0, 0xff10, 0x104a0, 0x10d30, 0x11066, 0x110f0, 0x11136, 0x111d0, 0x112f0, 0x11450, 0x114d0, 0x11650, 0x116c0,
    0x11730, 0x118e0, 0x11950, 0x11c50, 0x11d50, 0x11da0, 0x16a60, 0x16ac0, 0x16b50, 0x1d7ce, 0x1d7d8, 0x1d7e2, 0x1d7ec, 0x1d7f6,
    0x1e140, 0x1e2f0, 0x1e950, 0x1fbf0]

/-- The decimal digit that a character is, in any script. -/
def decimal (c : Char) : Option Nat :=
  (zeros.find? (fun z => decide (z ≤ c.toNat ∧ c.toNat < z + 10))).map (fun z => c.toNat - z)

/-- What `\d` matches. -/
def isDecimal (c : Char) : Bool := (decimal c).isSome

/-- `int`, of decimal digits. -/
def int (digits : List Char) : Nat := digits.foldl (fun n c => 10 * n + (decimal c).getD 0) 0

/-- `int(m.group(i))`. -/
def groupInt (groups : List (List Char)) (i : Nat) : Nat := int (groups.getD (i - 1) [])

/-- The body of the loop over the lines. -/
def readLine (r : Records) (line : List Char) : Records where
  bws :=
    match read isDecimal bwline line with
    | some m => r.bws ++ [(groupInt m 1, groupInt m 2)]
    | none => r.bws
  succs :=
    match read isDecimal sucline line with
    | some m => r.succs ++ [groupInt m 1]
    | none => r.succs
  fails :=
    match read isDecimal failine line with
    | some m => r.fails ++ [groupInt m 1]
    | none => r.fails

/-- A file is read as a text: `\r` and `\r\n` stand for `\n`. Behind a `\r`, `\n` is part of the same line end. -/
def universalNewlines (pendingcr : Bool) : List Char → List Char
  | [] => []
  | c :: text =>
    if c = '\r' then '\n' :: universalNewlines true text
    else if c = '\n' ∧ pendingcr = true then universalNewlines false text
    else c :: universalNewlines false text

/-- The lines of a text, each with its end. -/
def textLines : List Char → List (List Char)
  | [] => []
  | c :: text =>
    if c = '\n' then [c] :: textLines text
    else
      match textLines text with
      | [] => [[c]]
      | line :: lines => (c :: line) :: lines

/-- The lines of a file that is opened as a text. -/
def fileLines (text : List Char) : List (List Char) := textLines (universalNewlines false text)

def readTranscript (text : List Char) : Records := (fileLines text).foldl readLine ⟨[], [], []⟩

end Dhtsim
