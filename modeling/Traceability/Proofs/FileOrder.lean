import Traceability.Proofs.Config.Compile
import Traceability.Proofs.Passing
import Traceability.Proofs.Rule.Rearranged

/-! Runs on files in another order.
A run that reads the same files in another order reports the same, down to the order of findings.
Its graph keeps the same nodes, edges and roots, of which edges and roots may stand in another
order.
-/

namespace Traceability

/-- The source set in another order, if no identifier is declared twice, gives a graph that differs
in the order of roots and edges only. -/
theorem Graph.rearranged_ofSources (scheme : Scheme) {sources other : SourceSet}
    (perm : other.files.Perm sources.files) (paths : (sources.files.map SourceFile.path).Nodup)
    (fresh : (Graph.ofSources scheme sources).duplicates = [])
    : (Graph.ofSources scheme sources).Rearranged (Graph.ofSources scheme other) := by
  refine rearranged_assemble scheme (perm.map _) ?_ fresh
  rw [List.map_map]
  exact paths

namespace Run

/-- Two runs report the same, and their graphs keep the same nodes, edges and roots. The positions
of edges and the order of edges and of roots may differ. -/
structure Matches (run other : Run) : Prop where
  coverage : other.coverage = run.coverage
  report : other.report = run.report
  nodes : ∀ id, other.graph.bare? id = run.graph.bare? id
  edges : other.graph.edges.toList.Perm run.graph.edges.toList
  roots : other.graph.roots.Perm run.graph.roots

/-- The order of the files of a run does not matter, if their paths are distinct and no identifier
is declared twice. -/
theorem matches_of_perm (scheme : Scheme) (changes : Option ChangeSummary)
    {sources other : SourceSet} (perm : other.files.Perm sources.files)
    (failures : other.failures = sources.failures)
    (paths : (sources.files.map SourceFile.path).Nodup)
    (fresh : (Graph.ofSources scheme sources).duplicates = [])
    : (ofSources scheme Rule.standard sources changes).Matches
        (ofSources scheme Rule.standard other changes) := by
  have rearranged := Graph.rearranged_ofSources scheme perm paths fresh
  have faithful := Graph.faithful_ofSources scheme sources
  have faithfulOther := Graph.faithful_ofSources scheme other
  have coverage := rearranged.coverage_eq faithful faithfulOther
  obtain ⟨metrics, graph⟩ := ofSources_graph_eq scheme Rule.standard sources changes
  obtain ⟨metricsOther, graphOther⟩ := ofSources_graph_eq scheme Rule.standard other changes
  refine {
    coverage
    report := ?_
    nodes := ?_
    edges := ?_
    roots := ?_
  }
  · rw [report_ofSources, report_ofSources, failures, coverage, Rule.report, Rule.report]
    rw [List.flatMap_congr (fun rule member => Rule.standard_agrees member rearranged
      faithful.attached faithfulOther.attached scheme _)]
  · rw [graph, graphOther]
    exact rearranged.entries
  · rw [graph, graphOther]
    exact rearranged.edges
  · rw [graph, graphOther]
    exact rearranged.roots

/-- Two requirements in two files, where the first refers to the second and to one that is not
there. -/
def childFirst : SourceSet where
  files := [
    ⟨"form.md", "# REQ-d00001: Form\n**Level**: DEV | **Implements**: REQ-p00001, REQ-p00002\n"
      ++ "A. Show a field.\n*End* *Form*\n"⟩,
    ⟨"login.md", "# REQ-p00001: Login\nA. Ask for a name.\n*End* *Login*\n"⟩]

/-- The parent first. -/
def parentFirst : SourceSet where
  files := childFirst.files.reverse

/-- The runs match, though their graphs keep the edges in different orders. -/
theorem matches_of_perm_childFirst
    : parentFirst.files.Perm childFirst.files
      ∧ parentFirst.failures = childFirst.failures
      ∧ (childFirst.files.map SourceFile.path).Nodup
      ∧ (Graph.ofSources Config.defaultScheme childFirst).duplicates = []
      ∧ (Graph.ofSources Config.defaultScheme parentFirst).edges.toList
          ≠ (Graph.ofSources Config.defaultScheme childFirst).edges.toList
      ∧ (ofSources Config.defaultScheme Rule.standard childFirst none).Matches
          (ofSources Config.defaultScheme Rule.standard parentFirst none) := by
  have perm : parentFirst.files.Perm childFirst.files := List.reverse_perm _
  have paths : (childFirst.files.map SourceFile.path).Nodup := by decide
  have fresh : (Graph.ofSources Config.defaultScheme childFirst).duplicates = [] := by
    decide +kernel
  refine ⟨perm, rfl, paths, fresh, by decide +kernel, ?_⟩
  exact matches_of_perm Config.defaultScheme none perm rfl paths fresh

end Run

end Traceability
