import Traceability.Coverage.Basic
import Traceability.Rule.Finding
import Traceability.Scheme.Identifier

/-! Rules: independent checks of an assembled graph. -/

namespace Traceability

/-- What a rule may look at. -/
structure RuleContext where
  graph : Graph
  scheme : Scheme
  coverage : CoverageReport

/-- A named check that returns all that it finds. -/
structure Rule where
  name : String
  check : RuleContext → List Finding

/-- A finding about a node, at the place of the node. -/
def Node.finding (node : Node) (rule : String) (severity : Severity) (message : String)
    : Finding :=
  { rule, severity, message, nodeId := some node.id, location := some node.source }

/-- The level of a requirement: the one it declares if that is known, otherwise the one that its
identifier encodes. -/
def Scheme.levelOf? (scheme : Scheme) (node : Node) : Option Level :=
  ((node.text? FieldKey.level).bind scheme.levelByName?).or
    ((scheme.parseId? node.id).bind (fun parts => scheme.levelByCode? parts.levelCode))

end Traceability
