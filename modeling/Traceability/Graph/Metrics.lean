import Traceability.Digest.Hash

/-! Facts about a node that are derived after assembly. -/

namespace Traceability

/-- The state of a file under version control. -/
structure ChangeFlags where
  modified : Bool := false
  untracked : Bool := false
  branchChanged : Bool := false
deriving Repr, DecidableEq

def ChangeFlags.any (flags : ChangeFlags) : Bool :=
  flags.modified || flags.untracked || flags.branchChanged

/-- The metrics of a node. Coverage and hash status belong to requirements. -/
structure Metrics where
  coverage : Option Rat := none
  hash : Option HashStatus := none
  changes : ChangeFlags := {}
deriving Repr, DecidableEq

end Traceability
