import Traceability.Coverage.Cycles

/-! Coverage of requirements.
A letter of a requirement is covered if an IMPLEMENTS or VALIDATES edge targets its assertion,
or targets the requirement and names the letter. Edges that implement along a cycle count for
nothing. A requirement without letters is covered as a whole or not at all.
-/

namespace Traceability

/-- The coverage of one requirement, with its letters in the order written. -/
structure RequirementCoverage where
  id : String
  letters : List String
  covered : List String
  fraction : Rat
deriving Repr, DecidableEq

structure CoverageReport where
  requirements : List RequirementCoverage
  cycles : List (List String)
deriving Repr, DecidableEq

namespace CoverageReport

def find? (report : CoverageReport) (id : String) : Option RequirementCoverage :=
  report.requirements.find? (fun entry => entry.id = id)

end CoverageReport

namespace Graph

/-- The members of the cycles of a list, each with the position of its cycle there. -/
def cycleMembers (cycles : List (List String)) : List (String × Nat) :=
  cycles.zipIdx.flatMap (fun (members, position) => members.map (fun id => (id, position)))

/-- For each requirement on a cycle of a list, the position of the cycle there. -/
def cycleIndex (cycles : List (List String)) : Std.ExtTreeMap String Nat :=
  Std.ExtTreeMap.ofList (cycleMembers cycles)

/-- Whether an edge implements along a cycle: its source and the owner of its target have the same
position. -/
def isInCycle (graph : Graph) (positions : Std.ExtTreeMap String Nat) (edge : Edge) : Bool :=
  edge.kind = .implements &&
    match positions[edge.source]?,
      (graph.owner? edge.target).bind (fun owner => positions[owner.id]?) with
    | some source, some target => source == target
    | _, _ => false

/-- Whether an edge is evidence for what it targets. -/
def counts (graph : Graph) (positions : Std.ExtTreeMap String Nat) (edge : Edge) : Bool :=
  edge.kind.covers && !graph.isInCycle positions edge

/-- The share of the letters that is covered. -/
def coveredShare (letters covered : List String) (isTargeted : Bool) : Rat :=
  if letters = [] then (if isTargeted then 1 else 0)
  else (covered.length : Rat) / (letters.length : Rat)

def requirementCoverage (graph : Graph) (positions : Std.ExtTreeMap String Nat) (id : String)
    : RequirementCoverage :=
  let direct := (graph.incoming id).filter (graph.counts positions)
  let assertions := graph.assertionsOf id
  let isCovered (assertion : Node) : Bool :=
    (graph.incoming assertion.id).any (graph.counts positions)
      || direct.any (fun edge =>
        edge.letters.contains ((assertion.text? FieldKey.label).getD ""))
  let letters := assertions.filterMap (fun node => node.text? FieldKey.label)
  let covered := (assertions.filter isCovered).filterMap (fun node => node.text? FieldKey.label)
  { id, letters, covered, fraction := coveredShare letters covered (direct ≠ []) }

/-- The coverage of every requirement. -/
def coverage (graph : Graph) : CoverageReport :=
  let cycles := graph.cycles
  let positions := cycleIndex cycles
  { requirements :=
      graph.requirements.map (fun node => graph.requirementCoverage positions node.id)
    cycles }

/-- Records the coverage of every requirement in its metrics. -/
def recordCoverage (graph : Graph) (report : CoverageReport) : Graph :=
  report.requirements.foldl
    (fun graph entry => graph.updateMetrics entry.id
      (fun metrics => { metrics with coverage := some entry.fraction }))
    graph

end Graph

end Traceability
