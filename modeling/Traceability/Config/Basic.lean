import Std.Data.ExtTreeMap

/-! The configuration as it is written.
Every field has a default. Nothing is checked here: compilation decides which configurations
make sense.
-/

namespace Traceability

/-- One requirement level as written: its name on metadata lines, the letter that stands for
it inside identifiers, and its rank, lower ranks being higher in the hierarchy. -/
structure LevelSpec where
  name : String
  code : String
  rank : Nat
deriving Repr, DecidableEq

/-- Which levels may stand above which. An explicit table replaces the order by rank. -/
structure Hierarchy where
  allowSameLevel : Bool := true
  allowedParents : Option (Std.ExtTreeMap String (List String)) := none

structure Config where
  idPrefix : String := "REQ"
  journeyPrefix : String := "JNY"
  levels : List LevelSpec := [⟨"PRD", "p", 1⟩, ⟨"OPS", "o", 2⟩, ⟨"DEV", "d", 3⟩]
  idDigits : Nat := 5
  zeroPadded : Bool := true
  hashLength : Nat := 8
  implementsKeyword : String := "Implements"
  validatesKeyword : String := "Validates"
  statuses : List String := ["Active", "Draft", "Deprecated", "Proposed"]
  hierarchy : Hierarchy := {}
  /-- Whether functions of test files that are named after a requirement refer to it. -/
  testNameReferences : Bool := true

end Traceability
