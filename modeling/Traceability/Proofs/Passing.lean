import Traceability.Proofs.Graph.Lettering
import Traceability.Proofs.Graph.Metrics
import Traceability.Proofs.Rule.Format
import Traceability.Proofs.Rule.Structure

/-! When a run passes.
Metrics are recorded after assembly and no rule looks at them, so whether a run passes is a
property of the assembled graph. It is one condition for each rule that reports errors.
-/

namespace Traceability

-----------------------------------------------------------------------------------------
-- Metrics do not matter
-----------------------------------------------------------------------------------------

/-- The rules see the assembled graph under other metrics. -/
theorem Run.ofSources_graph_eq (scheme : Scheme) (rules : List Rule) (sources : SourceSet)
    (changes : Option ChangeSummary)
    : ∃ metrics,
        (Run.ofSources scheme rules sources changes).graph
          = { Graph.ofSources scheme sources with metrics } := by
  obtain ⟨first, coverage⟩ :=
    (Graph.ofSources scheme sources).recordCoverage_eq (Graph.ofSources scheme sources).coverage
  obtain ⟨second, hashes⟩ :=
    ({ Graph.ofSources scheme sources with metrics := first } : Graph).recordHashes_eq
      scheme.hashLength
  simp only [Run.ofSources, coverage, hashes]
  cases changes with
  | none => exact ⟨second, rfl⟩
  | some summary => exact Graph.recordChanges_eq _ summary

/-- No standard rule looks at metrics. -/
theorem Rule.standard_check_eq (graph : Graph) (metrics : Std.ExtTreeMap String Metrics)
    (scheme : Scheme) (coverage : CoverageReport) {rule : Rule} (member : rule ∈ standard)
    : rule.check { graph := { graph with metrics }, scheme, coverage }
      = rule.check { graph, scheme, coverage } := by
  simp only [standard, List.mem_cons, List.not_mem_nil, or_false] at member
  rcases member with rfl | rfl | rfl | rfl | rfl | rfl | rfl | rfl <;> rfl

/-- The report of a run follows from the assembled graph, as rules do not look at metrics. -/
theorem Run.report_ofSources (scheme : Scheme) (sources : SourceSet)
    (changes : Option ChangeSummary)
    : (Run.ofSources scheme Rule.standard sources changes).report
      = (Rule.report Rule.standard
          { graph := Graph.ofSources scheme sources
            scheme
            coverage := (Graph.ofSources scheme sources).coverage }).extend
          (sources.failures.map LoadFailure.finding) := by
  obtain ⟨metrics, recorded⟩ := Run.ofSources_graph_eq scheme Rule.standard sources changes
  have reported
      : (Run.ofSources scheme Rule.standard sources changes).report
        = (Rule.report Rule.standard
            { graph := (Run.ofSources scheme Rule.standard sources changes).graph
              scheme
              coverage := (Graph.ofSources scheme sources).coverage }).extend
            (sources.failures.map LoadFailure.finding) :=
    rfl
  rw [reported, recorded, Rule.report, Rule.report,
    List.flatMap_congr (fun rule member => Rule.standard_check_eq _ metrics scheme _ member)]

-----------------------------------------------------------------------------------------
-- The graph of a passing run
-----------------------------------------------------------------------------------------

namespace Graph

open Relation

/-- What the graph of a passing run satisfies. Levels that are not known, hashes that are not
stored and references that a file announces are let pass. -/
structure Sound (scheme : Scheme) (graph : Graph) : Prop where
  /-- No identifier is defined twice. -/
  unique : graph.duplicates = []
  /-- A reference that leads nowhere has a finding that the budget of its file marks. -/
  announced
    : ∀ edge ∈ graph.edges, edge.kind ≠ .contains →
        (graph.node? edge.target = none
          ∨ ∃ target,
              graph.node? edge.target = some target
              ∧ ∃ letter ∈ edge.letters, letter ∉ target.list FieldKey.assertions) →
        ∃ finding,
          (WrittenReference.ofEdge edge, finding) ∈ BrokenReference.marked graph
          ∧ finding.suppressed = true
  /-- The levels of a requirement and of each of its parents go together. -/
  permitted
    : ∀ child ∈ graph.requirements, ∀ parent ∈ graph.requirements,
        (∃ edge ∈ graph.edges,
          edge.source = child.id
          ∧ (edge.kind = .implements ∨ edge.kind = .refines)
          ∧ (edge.target = parent.id
            ∨ ∃ node,
                graph.node? edge.target = some node
                ∧ node.kind = .assertion
                ∧ node.text? FieldKey.requirement = some parent.id)) →
        ∀ level parentLevel,
          scheme.levelOf? child = some level →
          scheme.levelOf? parent = some parentLevel →
            scheme.permitsParent level parentLevel = true
  /-- No requirement leads to itself along IMPLEMENTS edges. -/
  acyclic : ∀ id, ¬ TransGen graph.Leads id id
  /-- Assertions are lettered from the start of the alphabet. -/
  lettered
    : ∀ node ∈ graph.requirements,
        node.list FieldKey.assertions <+: Rule.Sequence.alphabet
  /-- Every requirement has a complete metadata line. -/
  complete : ∀ node ∈ graph.requirements, Rule.Metadata.Complete scheme node
  /-- Every stored hash is that of the body, the case of letters aside. -/
  hashed
    : ∀ node ∈ graph.requirements, ∀ stored, node.text? FieldKey.hash = some stored →
        Text.sameIgnoringCase stored
            (BodyHash.compute ((node.text? FieldKey.body).getD "") scheme.hashLength)
          = true

end Graph

namespace Run

/-- A run passes exactly if its graph is sound. Files that could not be read, orphans and the
state of version control have no say. -/
theorem passed_iff_sound (scheme : Scheme) (sources : SourceSet)
    (changes : Option ChangeSummary)
    : (Run.ofSources scheme Rule.standard sources changes).passed = true
      ↔ (Graph.ofSources scheme sources).Sound scheme := by
  obtain ⟨metrics, recorded⟩ := ofSources_graph_eq scheme Rule.standard sources changes
  obtain ⟨assembled, distinct⟩ := Graph.assembled_ofSources scheme sources
  let graph := Graph.ofSources scheme sources
  let context : RuleContext := { graph, scheme, coverage := graph.coverage }
  have reported
      : (Run.ofSources scheme Rule.standard sources changes).report
        = (Rule.report Rule.standard
            { graph := { graph with metrics }, scheme, coverage := graph.coverage }).extend
            (sources.failures.map LoadFailure.finding) := by
    rw [← recorded]
    rfl
  have harmless : ∀ finding ∈ sources.failures.map LoadFailure.finding,
      finding.severity ≠ .error := by
    intro finding member
    obtain ⟨failure, -, rfl⟩ := List.mem_map.mp member
    exact Severity.noConfusion
  have all
      : (Run.ofSources scheme Rule.standard sources changes).passed = true
        ↔ ∀ rule ∈ Rule.standard, Rule.Silent context rule := by
    rw [passed, reported, Rule.passed_report_iff _ _ _ harmless]
    refine forall₂_congr (fun rule member => ?_)
    rw [Rule.Silent, Rule.standard_check_eq graph metrics scheme _ member]
    rfl
  rw [all]
  simp only [Rule.standard, List.forall_mem_cons, List.not_mem_nil, false_imp_iff, implies_true,
    and_true]
  have wired : context.graph.Wired := assembled.wired
  have letters (unique : context.graph.duplicates = []) :=
    Rule.silent_assertionSequence_iff assembled unique distinct
  rw [Rule.silent_duplicateId_iff, Rule.silent_brokenReference_iff wired,
    Rule.silent_hierarchy_iff wired, Rule.silent_cycle_iff rfl, Rule.silent_metadata_iff,
    Rule.silent_storedHash_iff]
  constructor
  · intro given
    obtain ⟨unique, announced, -, permitted, acyclic, lettered, complete, hashed⟩ := given
    exact {
      unique
      announced := fun edge member kind leadsNowhere =>
        announced edge member (Graph.isBroken_iff.mpr ⟨kind, leadsNowhere⟩)
      permitted := by
        intro child member parent other written level parentLevel known parentKnown
        obtain ⟨edge, present, leaves, kind, belongs⟩ := written
        exact permitted child member edge present leaves (EdgeKind.isParentage_iff.mpr kind) parent
          (assembled.owner?_eq_some_iff.mpr ⟨other, belongs⟩) level known parentLevel parentKnown
      acyclic
      lettered := (letters unique).mp lettered
      complete
      hashed
    }
  · intro sound
    refine ⟨sound.unique, ?_, Rule.silent_orphan context, ?_, sound.acyclic,
      (letters sound.unique).mpr sound.lettered, sound.complete, sound.hashed⟩
    · intro edge member broken
      obtain ⟨kind, leadsNowhere⟩ := Graph.isBroken_iff.mp broken
      exact sound.announced edge member kind leadsNowhere
    · intro child member edge present leaves kind parent owned level known parentLevel parentKnown
      obtain ⟨other, belongs⟩ := assembled.owner?_eq_some_iff.mp owned
      exact sound.permitted child member parent other
        ⟨edge, present, leaves, EdgeKind.isParentage_iff.mp kind, belongs⟩ level parentLevel known
        parentKnown

end Run

end Traceability
