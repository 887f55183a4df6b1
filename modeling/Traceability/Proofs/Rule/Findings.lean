import Traceability.Proofs.Graph.Nodes
import Traceability.Rule.Basic

/-! The findings about one node.
No two nodes have one identifier. So where a rule goes through nodes and reports each under its
identifier, the findings about a node are what the rule reports of it.
-/

namespace Traceability

namespace Graph

variable {graph : Graph} {kind : NodeKind} {node : Node}

/-- Only the node itself has its identifier. -/
theorem filter_id_of_mem (member : node ∈ graph.nodesOfKind kind)
    : (graph.nodesOfKind kind).filter (fun other => decide (other.id = node.id)) = [node] := by
  have unique : (graph.nodesOfKind kind).Nodup :=
    (graph.nodesOfKind_ordered kind).imp (fun before same => before.ne (congrArg Node.id same))
  have single : (graph.nodesOfKind kind).filter (fun other => other == node) = [node] := by
    rw [List.filter_beq, List.count_eq_one_of_mem unique member, List.replicate_one]
  refine (List.filter_congr (fun other listed => ?_)).trans single
  obtain ⟨found, -⟩ := mem_nodesOfKind_iff.mp member
  obtain ⟨there, -⟩ := mem_nodesOfKind_iff.mp listed
  rw [Bool.eq_iff_iff, decide_eq_true_eq, beq_iff_eq]
  refine ⟨fun same => ?_, congrArg Node.id⟩
  rw [same, found] at there
  exact (Option.some.inj there).symm

/-- No node of another kind has the identifier of a node. -/
theorem filter_id_of_other (member : node ∈ graph.nodesOfKind kind) {other : NodeKind}
    (differs : kind ≠ other)
    : (graph.nodesOfKind other).filter (fun entry => decide (entry.id = node.id)) = [] := by
  refine List.filter_eq_nil_iff.mpr (fun entry listed same => differs ?_)
  obtain ⟨found, isKind⟩ := mem_nodesOfKind_iff.mp member
  obtain ⟨there, isOther⟩ := mem_nodesOfKind_iff.mp listed
  rw [of_decide_eq_true same, found, Option.some.injEq] at there
  rw [← isKind, ← isOther, there]

end Graph

namespace Rule

/-- The findings about one node. -/
def findingsAbout (findings : List Finding) (id : String) : List Finding :=
  findings.filter (fun finding => finding.nodeId = some id)

theorem findingsAbout_append (findings more : List Finding) (id : String)
    : findingsAbout (findings ++ more) id = findingsAbout findings id ++ findingsAbout more id :=
  List.filter_append _ _

section Selected

variable {graph : Graph} {kind : NodeKind} {selected : Node → Bool} {report : Node → Finding}

theorem findingsAbout_map (own : ∀ node, (report node).nodeId = some node.id) (nodes : List Node)
    (id : String)
    : findingsAbout ((nodes.filter selected).map report) id
      = ((nodes.filter (fun node => decide (node.id = id))).filter selected).map report := by
  rw [findingsAbout, List.filter_map, List.filter_filter, List.filter_filter]
  refine congrArg (List.map report) (List.filter_congr (fun node _ => ?_))
  simp only [Function.comp_apply, own, Option.some.injEq, Bool.and_comm]

/-- A node that is selected among those of its kind is reported once. -/
theorem findingsAbout_map_of_mem (own : ∀ node, (report node).nodeId = some node.id) {node : Node}
    (member : node ∈ graph.nodesOfKind kind)
    : findingsAbout (((graph.nodesOfKind kind).filter selected).map report) node.id
      = if selected node then [report node] else [] := by
  rw [findingsAbout_map own, Graph.filter_id_of_mem member, List.filter_cons, List.filter_nil]
  split <;> rfl

theorem findingsAbout_map_of_other (own : ∀ node, (report node).nodeId = some node.id)
    {node : Node} (member : node ∈ graph.nodesOfKind kind) {other : NodeKind}
    (differs : kind ≠ other)
    : findingsAbout (((graph.nodesOfKind other).filter selected).map report) node.id = [] := by
  rw [findingsAbout_map own, Graph.filter_id_of_other member differs, List.filter_nil,
    List.map_nil]

end Selected

/-- Of what is reported node by node, what is about one node comes from the nodes with its
identifier. -/
theorem findingsAbout_flatMap {report : Node → List Finding}
    (own : ∀ node, ∀ finding ∈ report node, finding.nodeId = some node.id) (nodes : List Node)
    (id : String)
    : findingsAbout (nodes.flatMap report) id
      = (nodes.filter (fun node => decide (node.id = id))).flatMap report := by
  induction nodes with
  | nil => rfl
  | cons node rest ih =>
      rw [List.flatMap_cons, findingsAbout_append, ih, List.filter_cons]
      by_cases named : node.id = id
      · have all : findingsAbout (report node) id = report node :=
          List.filter_eq_self.mpr (fun finding member =>
            decide_eq_true ((own node finding member).trans (congrArg some named)))
        rw [all, if_pos (decide_eq_true named), List.flatMap_cons]
      · have none : findingsAbout (report node) id = [] := by
          refine List.filter_eq_nil_iff.mpr (fun finding member about => named ?_)
          exact Option.some.inj ((own node finding member).symm.trans (of_decide_eq_true about))
        rw [none, if_neg (fun same => named (of_decide_eq_true same)), List.nil_append]

/-- Of what is reported requirement by requirement, what is about one requirement is what is
reported of it. -/
theorem findingsAbout_requirements {report : Node → List Finding}
    (own : ∀ node, ∀ finding ∈ report node, finding.nodeId = some node.id) {graph : Graph}
    {node : Node} (member : node ∈ graph.requirements)
    : findingsAbout (graph.requirements.flatMap report) node.id = report node := by
  rw [findingsAbout_flatMap own, Graph.requirements, Graph.filter_id_of_mem member,
    List.flatMap_singleton]

end Rule

end Traceability
