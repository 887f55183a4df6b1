import Traceability.Decimal.Shortest
import Traceability.Json.Basic
import Traceability.Run

/-! Runs as JSON.
Members that are empty or absent are left out where an object says so. Maps are written in the
order of their keys.
-/

namespace Traceability

open Json (record ofNat texts)

/-- A member that is left out where there is no value. -/
def optionalMember (key : String) (value : Option Json) : List (String × Json) :=
  (value.map (fun value => (key, value))).toList

/-- A member that is left out where the list is empty. -/
def listMember (key : String) (items : List Json) : List (String × Json) :=
  if items.isEmpty then [] else [(key, .array items)]

def Location.toJson (location : Location) : Json :=
  record [("path", .text location.path), ("start_line", ofNat location.startLine),
    ("end_line", ofNat location.endLine)]

def FieldValue.toJson : FieldValue → Json
  | .text s => .text s
  | .int n => .ofInt n
  | .flag b => .bool b
  | .list items => texts items

def Node.toJson (node : Node) : Json :=
  record [
    ("id", .text node.id),
    ("kind", .text node.kind.word),
    ("label", .text node.label),
    ("fields", record (node.fields.toList.map (fun (key, value) => (key, value.toJson)))),
    ("source", node.source.toJson),
    ("outgoing", .array (node.outgoing.toList.map ofNat)),
    ("incoming", .array (node.incoming.toList.map ofNat))]

def Edge.toJson (edge : Edge) : Json :=
  record ([("source", .text edge.source), ("target", .text edge.target),
      ("kind", .text edge.kind.word)]
    ++ listMember "assertion_targets" (edge.letters.map .text)
    ++ [("line", ofNat edge.line)])

def Duplicate.toJson (duplicate : Duplicate) : Json :=
  record [("id", .text duplicate.id), ("first", duplicate.first.toJson),
    ("duplicate", duplicate.duplicate.toJson)]

def fractionJson (q : Rat) : Json :=
  .number (Decimal.fractionText q)

def ChangeFlags.toJson (flags : ChangeFlags) : Json :=
  record [("modified", .bool flags.modified), ("untracked", .bool flags.untracked),
    ("branch_changed", .bool flags.branchChanged)]

def Metrics.toJson (metrics : Metrics) : Json :=
  record (optionalMember "coverage" (metrics.coverage.map fractionJson)
    ++ optionalMember "hash" (metrics.hash.map (fun status => .text status.word))
    ++ (if metrics.changes.any then [("git", metrics.changes.toJson)] else []))

def Suppression.toJson (marker : Suppression) : Json :=
  record [("line", ofNat marker.line), ("count", ofNat marker.count)]

def FileFacts.toJson (facts : FileFacts) : Json :=
  record (("line_count", ofNat facts.lineCount)
    :: listMember "suppressions" (facts.suppressions.map Suppression.toJson))

def Graph.toJson (graph : Graph) : Json :=
  record ([
    ("nodes", record (graph.nodes.toList.map (fun (id, node) => (id, node.toJson)))),
    ("edges", .array (graph.edges.toList.map Edge.toJson)),
    ("roots", texts graph.roots)]
    ++ listMember "duplicates" (graph.duplicates.map Duplicate.toJson)
    ++ [("metrics", record (graph.metrics.toList.map (fun (id, metrics) =>
        (id, metrics.toJson)))),
      ("files", record (graph.files.toList.map (fun (path, facts) => (path, facts.toJson))))])

def RequirementCoverage.toJson (entry : RequirementCoverage) : Json :=
  record [("id", .text entry.id), ("assertions", texts entry.letters),
    ("covered", texts entry.covered), ("coverage", fractionJson entry.fraction)]

def CoverageReport.toJson (report : CoverageReport) : Json :=
  record [("requirements", .array (report.requirements.map RequirementCoverage.toJson)),
    ("cycles", .array (report.cycles.map texts))]

def Finding.toJson (finding : Finding) : Json :=
  record ([("rule", .text finding.rule), ("severity", .text finding.severity.word)]
    ++ optionalMember "node_id" (finding.nodeId.map .text)
    ++ [("message", .text finding.message)]
    ++ optionalMember "location" (finding.location.map Location.toJson)
    ++ listMember "related" (finding.related.map Location.toJson)
    ++ (if finding.suppressed then [("suppressed", .bool true)] else []))

def Report.toJson (report : Report) : Json :=
  record [("violations", .array (report.violations.map Finding.toJson)),
    ("suppressed", .array (report.suppressed.map Finding.toJson))]

def Run.toJson (run : Run) : Json :=
  record [("graph", run.graph.toJson), ("coverage", run.coverage.toJson),
    ("report", run.report.toJson)]

end Traceability
