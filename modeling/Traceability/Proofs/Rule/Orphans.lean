import Traceability.Proofs.Graph.Roots
import Traceability.Proofs.Rule.Findings
import Traceability.Proofs.Rule.Ownership

/-! Which nodes are reported as orphans.
The rule looks at the roots, which were noted while the graph was assembled, and at the positions
that nodes record. What it means is stated over the whole list of edges: a requirement is cut off
if it is placed under parents of which none exists, and nothing refers to it or to one of its
assertions.
-/

namespace Traceability

namespace Graph

-----------------------------------------------------------------------------------------
-- Nodes that nothing connects
-----------------------------------------------------------------------------------------

/-- A requirement is placed under a parent that exists. -/
def HasParent (graph : Graph) (id : String) : Prop :=
  ∃ edge ∈ graph.edges,
    edge.source = id
    ∧ (edge.kind = .implements ∨ edge.kind = .refines)
    ∧ graph.contains edge.target = true

/-- Something implements, validates or refines a requirement or one of its assertions. -/
def IsReferenced (graph : Graph) (id : String) : Prop :=
  ∃ edge ∈ graph.edges,
    (edge.kind = .implements ∨ edge.kind = .validates ∨ edge.kind = .refines)
    ∧ graph.Belongs edge.target id

/-- A requirement has parents in name only, and nothing refers to it. -/
def IsCutOff (graph : Graph) (id : String) : Prop :=
  graph.IsPlaced id ∧ ¬ graph.HasParent id ∧ ¬ graph.IsReferenced id

/-- A requirement addresses a journey. -/
def IsAddressed (graph : Graph) (id : String) : Prop :=
  ∃ edge ∈ graph.edges, edge.kind = .addresses ∧ edge.target = id

instance (graph : Graph) (id : String) : Decidable (graph.HasParent id) :=
  decidable_of_iff (∃ edge ∈ graph.edges.toList,
      edge.source = id
      ∧ (edge.kind = .implements ∨ edge.kind = .refines)
      ∧ graph.contains edge.target = true)
    (by simp only [Array.mem_toList_iff, HasParent])

instance (graph : Graph) (id : String) : Decidable (graph.IsReferenced id) :=
  decidable_of_iff (∃ edge ∈ graph.edges.toList,
      (edge.kind = .implements ∨ edge.kind = .validates ∨ edge.kind = .refines)
      ∧ graph.Belongs edge.target id)
    (by simp only [Array.mem_toList_iff, IsReferenced])

instance (graph : Graph) (id : String) : Decidable (graph.IsCutOff id) :=
  inferInstanceAs (Decidable (_ ∧ _))

instance (graph : Graph) (id : String) : Decidable (graph.IsAddressed id) :=
  decidable_of_iff (∃ edge ∈ graph.edges.toList, edge.kind = .addresses ∧ edge.target = id)
    (by simp only [Array.mem_toList_iff, IsAddressed])

section Sources

variable {scheme : Scheme} {sources : SourceSet} {node : Node}

/-- What a requirement owns is what belongs to it. -/
theorem mem_idAndAssertions_iff_belongs
    (member : node ∈ (ofSources scheme sources).requirements) {id : String}
    : id ∈ (ofSources scheme sources).idAndAssertions node.id
      ↔ (ofSources scheme sources).Belongs id node.id := by
  rw [← owner?_iff_mem_idAndAssertions member,
    (faithful_ofSources scheme sources).assembled.owner?_eq_some_iff, and_iff_right member]
  rfl

theorem any_outgoing_iff_hasParent {id : String}
    : ((ofSources scheme sources).outgoing id).any (fun edge =>
        edge.kind.isParentage && (ofSources scheme sources).isResolved edge) = true
      ↔ (ofSources scheme sources).HasParent id := by
  simp only [List.any_eq_true, Bool.and_eq_true, EdgeKind.isParentage_iff, isResolved, HasParent,
    (faithful_ofSources scheme sources).assembled.wired.mem_outgoing_iff, and_assoc]

theorem any_incoming_iff_isReferenced (member : node ∈ (ofSources scheme sources).requirements)
    : ((ofSources scheme sources).idAndAssertions node.id).any (fun id =>
        ((ofSources scheme sources).incoming id).any (fun edge =>
          edge.kind.covers || edge.kind.isParentage)) = true
      ↔ (ofSources scheme sources).IsReferenced node.id := by
  have attached := (faithful_ofSources scheme sources).attached
  have kinds (kind : EdgeKind)
      : (kind.covers || kind.isParentage) = true
        ↔ kind = .implements ∨ kind = .validates ∨ kind = .refines := by
    cases kind <;> simp [EdgeKind.covers, EdgeKind.isParentage]
  simp only [List.any_eq_true, kinds]
  constructor
  · rintro ⟨id, owned, edge, arrives, kind⟩
    obtain ⟨present, rfl⟩ :=
      (attached.mem_incoming_iff (contains_of_mem_idAndAssertions member owned)).mp arrives
    exact ⟨edge, present, kind, (mem_idAndAssertions_iff_belongs member).mp owned⟩
  · rintro ⟨edge, present, kind, belongs⟩
    have owned := (mem_idAndAssertions_iff_belongs member).mpr belongs
    exact ⟨edge.target, owned, edge, (attached.mem_incoming_iff
      (contains_of_mem_idAndAssertions member owned)).mpr ⟨present, rfl⟩, kind⟩

theorem isCutOff_iff (member : node ∈ (ofSources scheme sources).requirements)
    : Rule.Orphan.isCutOff (ofSources scheme sources) node = true
      ↔ (ofSources scheme sources).IsCutOff node.id := by
  have requirement := mem_requirementIds_iff.mp (List.mem_map_of_mem member)
  have roots
      : node.id ∈ (ofSources scheme sources).roots
        ↔ ¬ (ofSources scheme sources).IsPlaced node.id :=
    mem_roots_assemble_iff.trans (and_iff_right requirement)
  simp only [Rule.Orphan.isCutOff, Bool.and_eq_true, Bool.not_eq_true', ← Bool.not_eq_true,
    List.contains_iff_mem, roots, any_outgoing_iff_hasParent,
    any_incoming_iff_isReferenced member, Decidable.not_not, IsCutOff, and_assoc]

theorem isUnaddressed_iff (member : node ∈ (ofSources scheme sources).nodesOfKind .journey)
    : Rule.Orphan.isUnaddressed (ofSources scheme sources) node = true
      ↔ ¬ (ofSources scheme sources).IsAddressed node.id := by
  have present : (ofSources scheme sources).contains node.id = true :=
    contains_iff.mpr ⟨node, (mem_nodesOfKind_iff.mp member).1⟩
  simp only [Rule.Orphan.isUnaddressed, Bool.not_eq_true', ← Bool.not_eq_true, List.any_eq_true,
    (faithful_ofSources scheme sources).attached.mem_incoming_iff present, decide_eq_true_eq,
    IsAddressed]
  refine not_congr (exists_congr (fun edge => ?_))
  tauto

end Sources

end Graph

-----------------------------------------------------------------------------------------
-- What the rule reports
-----------------------------------------------------------------------------------------

namespace Rule

/-- The warning about a requirement that is cut off. -/
def cutOffFinding (node : Node) : Finding :=
  node.finding "orphan" .warning
    (node.id ++ " has no resolvable parent and nothing references it")

/-- The note about a journey that nothing addresses. -/
def unaddressedFinding (node : Node) : Finding :=
  node.finding "orphan" .info (node.id ++ " is not addressed by any requirement")

/-- The roots are the requirements that no edge places under a parent, each noted once. Among the
requirements the rule on orphans reports those that are cut off, each once as a warning, among the
journeys those that nothing addresses, each once as a note, and nothing else. -/
theorem orphan_check_exact (scheme : Scheme) (sources : SourceSet) (coverage : CoverageReport)
    : let graph := Graph.ofSources scheme sources
      let findings := orphan.check ⟨graph, scheme, coverage⟩
      (∀ id, graph.roots.count id
          = if graph.isRequirement id = true ∧ ¬ graph.IsPlaced id then 1 else 0)
        ∧ (∀ node ∈ graph.requirements,
            findingsAbout findings node.id
              = if graph.IsCutOff node.id then [cutOffFinding node] else [])
        ∧ (∀ node ∈ graph.nodesOfKind .journey,
            findingsAbout findings node.id
              = if graph.IsAddressed node.id then [] else [unaddressedFinding node])
        ∧ ∀ finding ∈ findings,
            ∃ node ∈ graph.requirements ++ graph.nodesOfKind .journey,
              finding.nodeId = some node.id := by
  intro graph findings
  have listed
      : findings
        = (graph.requirements.filter (Orphan.isCutOff graph)).map cutOffFinding
          ++ ((graph.nodesOfKind .journey).filter (Orphan.isUnaddressed graph)).map
              unaddressedFinding :=
    rfl
  refine ⟨fun id => ?_, fun node member => ?_, fun node member => ?_, fun finding member => ?_⟩
  · have unique : graph.roots.Nodup := Graph.nodup_roots_assemble scheme _
    rw [unique.count]
    exact if_congr Graph.mem_roots_assemble_iff rfl rfl
  · rw [listed, findingsAbout_append, Graph.requirements,
      findingsAbout_map_of_mem (fun _ => rfl) member,
      findingsAbout_map_of_other (fun _ => rfl) member NodeKind.noConfusion, List.append_nil]
    exact if_congr (Graph.isCutOff_iff member) rfl rfl
  · rw [listed, findingsAbout_append, Graph.requirements,
      findingsAbout_map_of_other (fun _ => rfl) member NodeKind.noConfusion,
      findingsAbout_map_of_mem (fun _ => rfl) member, List.nil_append]
    rw [if_congr (Graph.isUnaddressed_iff member) rfl rfl, ite_not]
  · rcases List.mem_append.mp (listed ▸ member) with cutOff | unaddressed
    · obtain ⟨node, selected, rfl⟩ := List.mem_map.mp cutOff
      exact ⟨node, List.mem_append_left _ (List.mem_of_mem_filter selected), rfl⟩
    · obtain ⟨node, selected, rfl⟩ := List.mem_map.mp unaddressed
      exact ⟨node, List.mem_append_right _ (List.mem_of_mem_filter selected), rfl⟩

/-- A dash declares no parent, and the parent of another requirement, listed twice with several
letters, does not exist. -/
def lostRequirement : SourceSet where
  files := [
    ⟨"login.md", "# REQ-p00001: Login\n**Level**: PRD | **Implements**: -\n*End* *Login*\n"⟩,
    ⟨"lost.md", "# REQ-d00001: Lost\n**Level**: DEV | **Refines**: REQ-p00099-A-B, REQ-p00099-A-B\n"
      ++ "*End* *Lost*\n"⟩,
    ⟨"signin.md", "# JNY-User-01: Sign in\n*End* *JNY-User-01*\n"⟩]

theorem orphan_check_exact_lostRequirement
    : let graph := Graph.ofSources Config.defaultScheme lostRequirement
      let findings := orphan.check ⟨graph, Config.defaultScheme, graph.coverage⟩
      graph.roots.count "REQ-p00001" = 1
      ∧ (∃ node ∈ graph.requirements,
          node.id = "REQ-p00001" ∧ findingsAbout findings node.id = [])
      ∧ graph.roots.count "REQ-d00001" = 0
      ∧ (∃ node ∈ graph.requirements,
          node.id = "REQ-d00001" ∧ findingsAbout findings node.id = [cutOffFinding node])
      ∧ ∃ node ∈ graph.nodesOfKind .journey,
          node.id = "JNY-User-01" ∧ findingsAbout findings node.id = [unaddressedFinding node] := by
  intro graph findings
  obtain ⟨roots, requirements, journeys, -⟩ :=
    orphan_check_exact Config.defaultScheme lostRequirement graph.coverage
  have evaluated
      : (∃ node ∈ graph.requirements, node.id = "REQ-p00001" ∧ ¬ graph.IsPlaced node.id)
        ∧ (∃ node ∈ graph.requirements, node.id = "REQ-d00001" ∧ graph.IsCutOff node.id)
        ∧ ∃ node ∈ graph.nodesOfKind .journey,
            node.id = "JNY-User-01" ∧ ¬ graph.IsAddressed node.id := by
    decide +kernel
  obtain ⟨⟨root, isRoot, ownRoot, free⟩, ⟨lost, isLost, ownLost, cutOff⟩,
    ⟨journey, isJourney, ownJourney, unaddressed⟩⟩ := evaluated
  have requirement : graph.isRequirement root.id = true :=
    Graph.mem_requirementIds_iff.mp (List.mem_map_of_mem isRoot)
  refine ⟨?_, ⟨root, isRoot, ownRoot, ?_⟩, ?_, ⟨lost, isLost, ownLost, ?_⟩,
    ⟨journey, isJourney, ownJourney, ?_⟩⟩
  · exact ownRoot ▸ (roots _).trans (if_pos ⟨requirement, free⟩)
  · exact (requirements root isRoot).trans (if_neg (fun lone => free lone.1))
  · exact ownLost ▸ (roots _).trans (if_neg (fun other => other.2 cutOff.1))
  · exact (requirements lost isLost).trans (if_pos cutOff)
  · exact (journeys journey isJourney).trans (if_neg unaddressed)

end Rule

end Traceability
