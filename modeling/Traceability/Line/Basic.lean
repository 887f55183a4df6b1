import Traceability.Text.Lines
import Traceability.Text.Search

/-! Numbered lines of a file.
Readers of blocks see the lines that are still free, so numbers may have gaps. A block never
spans a gap: it takes lines whose numbers follow one another.
-/

namespace Traceability

/-- A line of a file. Numbers start at one. -/
structure Line where
  number : Nat
  text : String
deriving Repr, DecidableEq

namespace Line

/-- Texts as lines with consecutive numbers. -/
def numbered (first : Nat) : List (List Char) → List Line
  | [] => []
  | s :: rest => ⟨first, String.ofList s⟩ :: numbered (first + 1) rest

/-- The lines of a text, numbered from one. -/
def ofText (text : String) : List Line :=
  numbered 1 (Text.lines text.toList)

/-- How many of the lines after this one continue its run of consecutive numbers. -/
def runLength (line : Line) : List Line → Nat
  | [] => 0
  | next :: rest => if next.number = line.number + 1 then runLength next rest + 1 else 0

/-- The position at which the run of consecutive numbers ends that goes on from position `start`. -/
def runEnd (lines : List Line) (start : Nat) : Nat :=
  match lines.drop start with
  | [] => start
  | line :: rest => start + line.runLength rest

/-- The lines between this one and the first later one that satisfies `closes`, and that line.
There is no answer if a number is missing on the way or if a line on the way satisfies `stops`. -/
def upTo? (closes stops : Line → Bool) (line : Line) : List Line → Option (List Line × Line)
  | [] => none
  | next :: rest =>
      if next.number ≠ line.number + 1 then none
      else if closes next then some ([], next)
      else if stops next then none
      else (upTo? closes stops next rest).map (fun (inner, last) => (next :: inner, last))

/-- The texts of lines, one under the other. -/
def joinTexts (lines : List Line) : String :=
  String.ofList (Text.join ['\n'] (lines.map (fun line => line.text.toList)))

end Line

end Traceability
