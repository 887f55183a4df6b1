import Traceability.Block
import Traceability.Scheme.Basic

/-! Claimants take blocks from the free lines of a file.
A claimant sees the lines that no earlier claimant took, in the order of their numbers. What it
returns is a proposal: the registry keeps a block only if its lines are all still free.
-/

namespace Traceability

/-- What a claimant knows besides the lines. -/
structure ClaimContext where
  path : String
  scheme : Scheme

/-- A file is a test file if some component of its path mentions tests. -/
def ClaimContext.isTestFile (context : ClaimContext) : Bool :=
  (Text.splitWhere (fun c => c == '/' || c == '\\') context.path.toList).any
    (fun component => Text.contains "test".toList (component.map Char.toLower))

/-- A named reader of blocks. Lower priorities run earlier. -/
structure Claimant where
  name : String
  priority : Nat
  claim : ClaimContext → List Line → List Block

end Traceability
