import Traceability.Graph.Location

/-! Findings of a validation. -/

namespace Traceability

inductive Severity where
  | error
  | warning
  | info
deriving Repr, DecidableEq

def Severity.word : Severity → String
  | .error => "error"
  | .warning => "warning"
  | .info => "info"

/-- A finding. The related places are others that are involved, and a suppressed finding is one
that the file announced. -/
structure Finding where
  rule : String
  severity : Severity
  nodeId : Option String := none
  message : String
  location : Option Location := none
  related : List Location := []
  suppressed : Bool := false
deriving Repr, DecidableEq

namespace Finding

/-- The finding as a line of text. -/
def describe (finding : Finding) : String :=
  let place := match finding.location with
    | some location => location.describe ++ ": "
    | none => ""
  place ++ finding.severity.word ++ " [" ++ finding.rule ++ "] " ++ finding.message

/-- By place, findings without one first, then by rule, then by node. -/
def order : Finding → Finding → Ordering :=
  compareLex (compareOn Finding.location)
    (compareLex (compareOn Finding.rule) (compareOn Finding.nodeId))

/-- The findings in order. Findings that the order does not tell apart keep their places. -/
def sort (findings : List Finding) : List Finding :=
  findings.mergeSort (fun a b => (order a b).isLE)

end Finding

end Traceability
