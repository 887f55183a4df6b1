import Traceability.Line.Basic
import Traceability.Text.Blank

/-! Suppression markers.
A file announces how many broken references it is expected to hold. Each marker allows that
many more on the lines after it.
-/

namespace Traceability

open Text

structure Suppression where
  line : Nat
  count : Nat
deriving Repr, DecidableEq

namespace Suppression

/-- The largest count that a marker may announce. -/
def maxCount : Nat := UInt64.size - 1

/-- The count that a line announces. Only the first mention of the keyword counts. -/
def count? (s : List Char) : Option Nat := do
  let (_, rest) ← cutFirst? "elspais:".toList s
  let rest ← strip? "expected-broken-links".toList (trimStart rest)
  let digits := (trimStart rest).takeWhile Char.isDigit
  let count := Nat.ofDigitChars 10 digits 0
  if digits ≠ [] ∧ count ≤ maxCount then some count else none

/-- The markers of a file, from the first line to the last. -/
def scan (lines : List Line) : List Suppression :=
  lines.filterMap (fun line => (count? line.text.toList).map (fun count => ⟨line.number, count⟩))

end Suppression

end Traceability
