import Traceability.ChangeSummary
import Traceability.Config.Compile
import Traceability.Graph.Assembly
import Traceability.Rule.Report

/-! A run: files are cut into blocks, blocks become a graph, and rules look at the graph. -/

namespace Traceability

/-- A file to read: its path as places report it, and its text. -/
structure SourceFile where
  path : String
  text : String
deriving Repr, DecidableEq

/-- A file that could not be read. -/
structure LoadFailure where
  path : String
  reason : String
deriving Repr, DecidableEq

/-- The input of a run. -/
structure SourceSet where
  files : List SourceFile := []
  failures : List LoadFailure := []
deriving Repr, DecidableEq

/-- The finding that a file could not be read. It stands before the first line of the file. -/
def LoadFailure.finding (failure : LoadFailure) : Finding :=
  { rule := "file.unreadable"
    severity := .warning
    message := "could not read " ++ failure.path ++ ": " ++ failure.reason
    location := some (Location.ofLine failure.path 0) }

/-- The graph of the files of a source set. -/
def Graph.ofSources (scheme : Scheme) (sources : SourceSet) : Graph :=
  Graph.assemble scheme
    (sources.files.map (fun file => Registry.standard.parseFile scheme file.path file.text))

/-- Records for every requirement how its stored hash compares with its body. -/
def Graph.recordHashes (graph : Graph) (length : Nat) : Graph :=
  graph.requirements.foldl
    (fun graph node =>
      let status := BodyHash.verify ((node.text? FieldKey.body).getD "")
        (node.text? FieldKey.hash) length
      graph.updateMetrics node.id (fun metrics => { metrics with hash := some status }))
    graph

structure Run where
  graph : Graph
  coverage : CoverageReport
  report : Report

namespace Run

/-- Whether a run found no error that was not announced. -/
def passed (run : Run) : Bool :=
  run.report.passed

/-- Assembles the graph, records the metrics, and reports what the rules find. -/
def ofSources (scheme : Scheme) (rules : List Rule) (sources : SourceSet)
    (changes : Option ChangeSummary)
    : Run :=
  let graph := Graph.ofSources scheme sources
  let coverage := graph.coverage
  let graph := (graph.recordCoverage coverage).recordHashes scheme.hashLength
  let graph := match changes with
    | some summary => graph.recordChanges summary
    | none => graph
  let report := Rule.report rules { graph, scheme, coverage }
  { graph, coverage, report := report.extend (sources.failures.map LoadFailure.finding) }

end Run

end Traceability
