import Traceability.Proofs.Coverage.Components
import Traceability.Proofs.Distinct
import Traceability.Proofs.Graph.Assembly
import Traceability.Proofs.Rule.Report

/-! What the rules on the structure of a graph find. -/

namespace Traceability

namespace Rule

/-- Every duplicate is an error. -/
theorem silent_duplicateId_iff {context : RuleContext}
    : Silent context duplicateId ↔ context.graph.duplicates = [] := by
  simp only [Silent, duplicateId, List.forall_mem_map]
  constructor
  · intro silent
    rw [List.eq_nil_iff_forall_not_mem]
    intro duplicate member
    exact silent duplicate member ⟨rfl, rfl⟩
  · intro none duplicate member
    rw [none] at member
    exact absurd member List.not_mem_nil

/-- Orphans are warnings, and journeys that nothing addresses are notes. -/
theorem silent_orphan (context : RuleContext) : Silent context orphan := by
  intro finding member given
  obtain ⟨error, -⟩ := given
  rcases List.mem_append.mp member with cutOff | unaddressed
  · obtain ⟨node, -, rfl⟩ := List.mem_map.mp cutOff
    exact Severity.noConfusion error
  · obtain ⟨node, -, rfl⟩ := List.mem_map.mp unaddressed
    exact Severity.noConfusion error

/-- Every cycle is an error at its first member, which is present. -/
theorem silent_cycle_iff {context : RuleContext}
    (cycles : context.coverage.cycles = context.graph.cycles)
    : Silent context cycle ↔ ∀ id, ¬ Relation.TransGen context.graph.Leads id id := by
  rw [← Graph.cycles_eq_nil_iff, List.eq_nil_iff_forall_not_mem, ← cycles, Silent, cycle]
  simp only
  rw [Finding.filterMap_not_decisive_iff]
  refine forall₂_congr (fun members listed => iff_of_false ?_ id)
  rw [cycles] at listed
  have isCycle := Graph.mem_cycles_iff.mp listed
  obtain ⟨first, rest, rfl⟩ := List.exists_cons_of_ne_nil isCycle.nonempty
  have onCycle := isCycle.onOneCycle List.mem_cons_self
  obtain ⟨node, found, -⟩ := Graph.isRequirement_iff.mp onCycle.isRequirement
  simp [found, Finding.quiet_some_iff, Finding.Decisive, Node.finding]

-----------------------------------------------------------------------------------------
-- Levels of parents
-----------------------------------------------------------------------------------------

namespace Hierarchy

/-- The owners of what the parent edges of a requirement target, with the kinds of these edges. -/
theorem mem_owners_iff {graph : Graph} (wired : graph.Wired) {node owner : Node} {kind : EdgeKind}
    : (kind, owner)
        ∈ ((graph.outgoing node.id).filter (fun edge => edge.kind.isParentage)).filterMap
            (fun edge => (graph.owner? edge.target).map (fun owner => (edge.kind, owner)))
      ↔ ∃ edge ∈ graph.edges,
          edge.source = node.id
          ∧ edge.kind.isParentage = true
          ∧ graph.owner? edge.target = some owner
          ∧ edge.kind = kind := by
  simp only [List.mem_filterMap, List.mem_filter, wired.mem_outgoing_iff, Option.map_eq_some_iff,
    Prod.mk.injEq, and_assoc]
  refine exists_congr (fun edge => and_congr_right (fun _ => and_congr_right (fun _ =>
    and_congr_right (fun _ => ?_))))
  constructor
  · intro given
    obtain ⟨found, owned, here, rfl⟩ := given
    exact ⟨owned, here⟩
  · intro ⟨owned, here⟩
    exact ⟨owner, owned, here, rfl⟩

/-- A parent is listed with the kind of an edge to it. -/
theorem exists_edge_of_mem_parents {graph : Graph} (wired : graph.Wired) {node parent : Node}
    {kind : EdgeKind} (member : (kind, parent) ∈ parents graph node)
    : ∃ edge ∈ graph.edges,
        edge.source = node.id
        ∧ edge.kind.isParentage = true
        ∧ graph.owner? edge.target = some parent
        ∧ edge.kind = kind :=
  (mem_owners_iff wired).mp (mem_of_mem_eraseDupsBy member)

/-- Every owner of the target of a parent edge is a parent. Witness: a parent that was left out
has the identifier of one that was kept, and so it is the same node. -/
theorem exists_mem_parents_iff {graph : Graph} (wired : graph.Wired) {node parent : Node}
    : (∃ kind, (kind, parent) ∈ parents graph node)
      ↔ ∃ edge ∈ graph.edges,
          edge.source = node.id
          ∧ edge.kind.isParentage = true
          ∧ graph.owner? edge.target = some parent := by
  constructor
  · intro ⟨kind, member⟩
    obtain ⟨edge, present, leaves, parentage, owned, -⟩ := exists_edge_of_mem_parents wired member
    exact ⟨edge, present, leaves, parentage, owned⟩
  · intro written
    obtain ⟨edge, present, leaves, parentage, owned⟩ := written
    have found := (mem_owners_iff wired).mpr ⟨edge, present, leaves, parentage, owned, rfl⟩
    obtain ⟨⟨kind, other⟩, kept, same⟩ :=
      exists_mem_eraseDupsBy (fun a b => a.2.id == b.2.id) (fun _ => beq_self_eq_true _) found
    obtain ⟨_, _, _, _, again, -⟩ := exists_edge_of_mem_parents wired kept
    have own := Graph.node?_of_owner? owned
    have here : parent.id = other.id := eq_of_beq same
    rw [here, Graph.node?_of_owner? again, Option.some.injEq] at own
    exact ⟨kind, own ▸ kept⟩

/-- How a parent is declared does not matter. -/
theorem quiet_finding?_iff {scheme : Scheme} {node parent : Node} {level : Level}
    {kind : EdgeKind}
    : Finding.Quiet (finding? scheme node level kind parent)
      ↔ ∀ parentLevel, scheme.levelOf? parent = some parentLevel →
          scheme.permitsParent level parentLevel = true := by
  rw [finding?]
  cases scheme.levelOf? parent with
  | none => simp [Finding.quiet_none]
  | some parentLevel =>
      by_cases permitted : scheme.permitsParent level parentLevel = true
      · simp [permitted, Finding.quiet_none]
      · simp [permitted, Finding.quiet_some_iff, Finding.Decisive, Node.finding]

end Hierarchy

/-- Every owner that a requirement may not have as its parent is an error. -/
theorem silent_hierarchy_iff {context : RuleContext} (wired : context.graph.Wired)
    : Silent context hierarchy
      ↔ ∀ child ∈ context.graph.requirements, ∀ edge ∈ context.graph.edges,
          edge.source = child.id → edge.kind.isParentage = true →
          ∀ parent, context.graph.owner? edge.target = some parent →
          ∀ level, context.scheme.levelOf? child = some level →
          ∀ parentLevel, context.scheme.levelOf? parent = some parentLevel →
            context.scheme.permitsParent level parentLevel = true := by
  have perNode (child : Node) (level : Option Level)
      : (∀ finding ∈ (level.map (fun level =>
            (Hierarchy.parents context.graph child).filterMap (fun entry =>
              Hierarchy.finding? context.scheme child level entry.1 entry.2))).getD [],
          ¬ finding.Decisive)
        ↔ ∀ parent, (∃ kind, (kind, parent) ∈ Hierarchy.parents context.graph child) →
            ∀ own, level = some own →
            ∀ parentLevel, context.scheme.levelOf? parent = some parentLevel →
              context.scheme.permitsParent own parentLevel = true := by
    cases level with
    | none => simp
    | some level =>
        rw [Option.map_some, Option.getD_some, Finding.filterMap_not_decisive_iff]
        simp only [Prod.forall, Hierarchy.quiet_finding?_iff, Option.some.injEq, forall_eq',
          forall_exists_index]
        exact forall_comm
  have listed
      : hierarchy.check context
        = context.graph.requirements.flatMap (fun child =>
            ((context.scheme.levelOf? child).map (fun level =>
              (Hierarchy.parents context.graph child).filterMap (fun entry =>
                Hierarchy.finding? context.scheme child level entry.1 entry.2))).getD []) := by
    refine List.flatMap_congr (fun child _ => ?_)
    cases context.scheme.levelOf? child <;> rfl
  rw [Silent, listed, List.forall_mem_flatMap]
  refine forall₂_congr (fun child _ => (perNode child _).trans ?_)
  simp only [Hierarchy.exists_mem_parents_iff wired]
  constructor
  · intro permitted edge present leaves parentage parent owned
    exact permitted parent ⟨edge, present, leaves, parentage, owned⟩
  · intro permitted parent written
    obtain ⟨edge, present, leaves, parentage, owned⟩ := written
    exact permitted edge present leaves parentage parent owned

end Rule

end Traceability
