import Traceability.Proofs.Graph.Plain
import Traceability.Proofs.Rule.Rearranged

/-! What is made of a graph without the layout of requirements.
Coverage does not look at bodies, and of the rules only the one on stored hashes does. A hash is
that of the canonical form, which is its own canonical form, so all of them make the same of a
graph and of its plain form.
-/

namespace Traceability

-----------------------------------------------------------------------------------------
-- Coverage
-----------------------------------------------------------------------------------------

namespace Graph

variable (graph : Graph)

theorem implementsMap_plain : graph.plain.implementsMap = graph.implementsMap := by
  have edges : graph.plain.edgesOfKind .implements = graph.edgesOfKind .implements := rfl
  have addStep : graph.plain.addStep = graph.addStep := by
    funext adjacency edge
    rw [Graph.addStep, Graph.addStep, isRequirement_plain, owner?_plain]
    cases graph.isRequirement edge.source <;> cases graph.owner? edge.target <;> simp
  rw [implementsMap, implementsMap, edges, addStep, requirements_plain, List.foldl_map]
  simp only [Node.id_plain]

theorem cycles_plain : graph.plain.cycles = graph.cycles := by
  rw [cycles, cycles, implementsMap_plain]

theorem counts_plain (positions : Std.ExtTreeMap String Nat)
    : graph.plain.counts positions = graph.counts positions := by
  funext edge
  rw [counts, counts, isInCycle, isInCycle, owner?_plain]
  cases graph.owner? edge.target <;> simp

theorem requirementCoverage_plain (positions : Std.ExtTreeMap String Nat) (id : String)
    : graph.plain.requirementCoverage positions id = graph.requirementCoverage positions id := by
  have label (node : Node) : node.plain.text? FieldKey.label = node.text? FieldKey.label :=
    node.text?_plain (by decide) (by decide)
  simp only [requirementCoverage, incoming_plain, assertionsOf_plain, counts_plain,
    List.filter_map, List.filterMap_map, Function.comp_def, Node.id_plain, label]

theorem coverage_plain : graph.plain.coverage = graph.coverage := by
  simp only [coverage, cycles_plain, requirements_plain, List.map_map, Function.comp_def,
    requirementCoverage_plain, Node.id_plain]

theorem coverage_eq_of_plain {graph other : Graph} (same : other.plain = graph.plain)
    : other.coverage = graph.coverage := by
  rw [← coverage_plain other, same, coverage_plain]

end Graph

-----------------------------------------------------------------------------------------
-- Stored hashes
-----------------------------------------------------------------------------------------

/-- A body and its canonical form have one hash. -/
theorem BodyHash.compute_form (body : String) (length : Nat)
    : compute (String.ofList (Canonical.form body.toList)) length = compute body length := by
  rw [compute, compute, String.toList_ofList, Canonical.form_form]

namespace Node

theorem hash_plain (node : Node) : node.plain.text? FieldKey.hash = node.text? FieldKey.hash :=
  node.text?_plain (by decide) (by decide)

theorem compute_plain (node : Node) (length : Nat)
    : BodyHash.compute ((node.plain.text? FieldKey.body).getD "") length
      = BodyHash.compute ((node.text? FieldKey.body).getD "") length := by
  by_cases kind : node.kind = .requirement
  · rw [body_plain kind]
    cases node.text? FieldKey.body with
    | none => rfl
    | some body => exact BodyHash.compute_form body length
  · rw [plain_of_other kind]

theorem verify_plain (node : Node) (stored : Option String) (length : Nat)
    : BodyHash.verify ((node.plain.text? FieldKey.body).getD "") stored length
      = BodyHash.verify ((node.text? FieldKey.body).getD "") stored length := by
  simp only [BodyHash.verify, compute_plain]

@[simp]
theorem finding_plain (node : Node) (rule : String) (severity : Severity) (message : String)
    : node.plain.finding rule severity message = node.finding rule severity message := by
  rw [finding, finding, id_plain, source_plain]

end Node

-----------------------------------------------------------------------------------------
-- The rules
-----------------------------------------------------------------------------------------

namespace Graph

variable (graph : Graph)

theorem missingLetters_plain : graph.plain.missingLetters = graph.missingLetters := by
  funext edge
  rw [missingLetters, missingLetters, node?_plain]
  cases graph.node? edge.target <;> simp

theorem isBroken_plain : graph.plain.isBroken = graph.isBroken := by
  funext edge
  rw [isBroken, isBroken, isResolved, isResolved, contains_plain, missingLetters_plain]

theorem brokenReferences_plain : graph.plain.brokenReferences = graph.brokenReferences := by
  have edges : graph.plain.edges = graph.edges := rfl
  rw [brokenReferences, brokenReferences, edges, isBroken_plain, missingLetters_plain]

end Graph

namespace Rule

variable (graph : Graph)

theorem brokenReference_plain : brokenReference.Agrees graph graph.plain := by
  intro scheme coverage
  have finding (reference : WrittenReference) (letters : List String)
      : BrokenReference.finding? graph.plain reference letters
        = BrokenReference.finding? graph reference letters := by
    rw [BrokenReference.finding?, BrokenReference.finding?, Graph.node?_plain, Option.map_map]
    simp only [Function.comp_def, Node.source_plain, Node.id_plain, Node.label_plain]
  have files : graph.plain.files = graph.files := rfl
  simp only [brokenReference, BrokenReference.check, Graph.brokenReferences_plain, finding, files]

theorem orphan_plain : orphan.Agrees graph graph.plain := by
  intro scheme coverage
  have roots : graph.plain.roots = graph.roots := rfl
  have cutOff (node : Node)
      : Orphan.isCutOff graph.plain node.plain = Orphan.isCutOff graph node := by
    simp only [Orphan.isCutOff, Node.id_plain, roots, Graph.outgoing_plain, Graph.incoming_plain,
      Graph.isResolved, Graph.contains_plain, Graph.idAndAssertions_plain]
  have unaddressed (node : Node)
      : Orphan.isUnaddressed graph.plain node.plain = Orphan.isUnaddressed graph node := by
    rw [Orphan.isUnaddressed, Orphan.isUnaddressed, Node.id_plain, Graph.incoming_plain]
  simp only [orphan, Graph.requirements_plain, Graph.nodesOfKind_plain, List.filter_map,
    List.map_map, Function.comp_def, cutOff, unaddressed, Node.finding_plain, Node.id_plain]

theorem levelOf?_plain (scheme : Scheme) (node : Node)
    : scheme.levelOf? node.plain = scheme.levelOf? node := by
  rw [Scheme.levelOf?, Scheme.levelOf?, node.text?_plain (by decide) (by decide), Node.id_plain]

theorem parents_plain (node : Node)
    : Hierarchy.parents graph.plain node.plain
      = (Hierarchy.parents graph node).map (Prod.map id Node.plain) := by
  let same (a b : EdgeKind × Node) : Bool := a.2.id == b.2.id
  have agree (a b : EdgeKind × Node)
      : same (Prod.map id Node.plain a) (Prod.map id Node.plain b) = same a b := by
    simp [same]
  simp only [Hierarchy.parents, Node.id_plain, Graph.outgoing_plain]
  rw [map_eraseDupsBy agree, List.map_filterMap]
  simp only [Graph.owner?_plain, Option.map_map, Function.comp_def, Prod.map, id, same]

theorem hierarchy_plain : hierarchy.Agrees graph graph.plain := by
  intro scheme coverage
  have finding (node parent : Node) (level : Level) (kind : EdgeKind)
      : Hierarchy.finding? scheme node.plain level kind parent.plain
        = Hierarchy.finding? scheme node level kind parent := by
    simp only [Hierarchy.finding?, levelOf?_plain, Node.finding_plain, Node.id_plain,
      Node.source_plain]
  simp only [hierarchy, Graph.requirements_plain, List.flatMap_map, levelOf?_plain, parents_plain,
    List.filterMap_map, Function.comp_def, Prod.map, id, finding]

theorem cycle_plain : cycle.Agrees graph graph.plain := by
  intro scheme coverage
  have sources (ids : List String)
      : (ids.filterMap graph.plain.node?).map Node.source
        = (ids.filterMap graph.node?).map Node.source := by
    simp only [List.map_filterMap, Graph.node?_plain, Option.map_map, Function.comp_def,
      Node.source_plain]
  have first (id : String) (make : Node → Finding) (same : ∀ node, make node.plain = make node)
      : (graph.plain.node? id).bind (fun node => some (make node))
        = (graph.node? id).bind (fun node => some (make node)) := by
    rw [Graph.node?_plain, Option.bind_map]
    simp only [Function.comp_def, same]
  refine List.filterMap_congr (fun members _ => ?_)
  cases members.head? with
  | none => rfl
  | some id =>
      simp only [sources]
      exact first id _ (fun node => by simp only [Node.finding_plain])

theorem assertionSequence_plain : assertionSequence.Agrees graph graph.plain := by
  intro scheme coverage
  simp only [assertionSequence, Graph.requirements_plain, List.filterMap_map, Function.comp_def,
    Node.list_plain, Node.finding_plain, Node.id_plain]

theorem metadata_plain : metadata.Agrees graph graph.plain := by
  intro scheme coverage
  have filled (node : Node) (key : String) (notBody : key ≠ FieldKey.body)
      (notMarker : key ≠ FieldKey.endMarker)
      : Metadata.filled? node.plain key = Metadata.filled? node key := by
    rw [Metadata.filled?, Metadata.filled?, node.text?_plain notBody notMarker]
  have findings (node : Node)
      : Metadata.findings scheme node.plain = Metadata.findings scheme node := by
    have level := filled node FieldKey.level (by decide) (by decide)
    have status := filled node FieldKey.status (by decide) (by decide)
    simp only [Metadata.findings, Metadata.missingField?, Metadata.unknownStatus?,
      Metadata.levelMismatch?, level, status, Node.flag_plain, Node.finding_plain, Node.id_plain]
  simp only [metadata, Graph.requirements_plain, List.flatMap_map, findings]

theorem storedHash_plain : storedHash.Agrees graph graph.plain := by
  intro scheme coverage
  have finding (length : Nat) (node : Node)
      : StoredHash.finding? length node.plain = StoredHash.finding? length node := by
    simp only [StoredHash.finding?, Node.hash_plain, Node.compute_plain, Node.verify_plain,
      Node.finding_plain, Node.id_plain]
  simp only [storedHash, Graph.requirements_plain, List.filterMap_map, Function.comp_def, finding]

/-- No standard rule looks at the layout of requirements. -/
theorem standard_plain {rule : Rule} (member : rule ∈ standard)
    : rule.Agrees graph graph.plain := by
  simp only [standard, List.mem_cons, List.not_mem_nil, or_false] at member
  rcases member with rfl | rfl | rfl | rfl | rfl | rfl | rfl | rfl
  · exact fun _ _ => rfl
  · exact brokenReference_plain graph
  · exact orphan_plain graph
  · exact hierarchy_plain graph
  · exact cycle_plain graph
  · exact assertionSequence_plain graph
  · exact metadata_plain graph
  · exact storedHash_plain graph

theorem report_eq_of_plain {graph other : Graph} (same : other.plain = graph.plain)
    (scheme : Scheme) (coverage : CoverageReport)
    : report standard { graph := other, scheme, coverage }
      = report standard { graph, scheme, coverage } := by
  have checks {rule : Rule} (member : rule ∈ standard)
      : rule.check { graph := other, scheme, coverage }
        = rule.check { graph, scheme, coverage } := by
    rw [← standard_plain other member, same, standard_plain graph member]
  rw [report, report, List.flatMap_congr (fun rule member => checks member)]

end Rule

-----------------------------------------------------------------------------------------
-- Metrics
-----------------------------------------------------------------------------------------

namespace Graph

variable (graph : Graph)

theorem updateMetrics_plain (id : String) (f : Metrics → Metrics)
    : graph.plain.updateMetrics id f = (graph.updateMetrics id f).plain := by
  rw [updateMetrics, updateMetrics, contains_plain]
  split <;> rfl

theorem recordCoverage_plain (report : CoverageReport)
    : graph.plain.recordCoverage report = (graph.recordCoverage report).plain :=
  List.foldl_hom plain (fun graph _ => graph.updateMetrics_plain _ _)

theorem recordHashes_plain (length : Nat)
    : graph.plain.recordHashes length = (graph.recordHashes length).plain := by
  simp only [recordHashes, requirements_plain, List.foldl_map, Node.id_plain, Node.hash_plain,
    Node.verify_plain]
  exact List.foldl_hom plain (fun graph _ => graph.updateMetrics_plain _ _)

theorem recordChanges_plain (summary : ChangeSummary)
    : graph.plain.recordChanges summary = (graph.recordChanges summary).plain := by
  simp only [recordChanges, nodeList_plain, List.foldl_map, Node.id_plain, Node.source_plain]
  refine List.foldl_hom plain (fun graph node => ?_)
  split
  · exact graph.updateMetrics_plain _ _
  · rfl

end Graph

end Traceability
