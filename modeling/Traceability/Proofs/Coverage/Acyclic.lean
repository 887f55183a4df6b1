import Traceability.Proofs.Graph.Restriction

/-! Coverage counts as if there were no edges along cycles.
Each edge along a cycle is a step of one, so without these edges nothing leads back to itself.
They were no evidence, and all others stay evidence, so every requirement keeps its coverage.
-/

namespace Traceability.Graph

open Relation

variable {graph other : Graph}

-----------------------------------------------------------------------------------------
-- What coverage looks at
-----------------------------------------------------------------------------------------

/-- The coverage of a requirement follows from the labels of its assertions and from the edges
that count at each node. -/
theorem requirementCoverage_congr {positions otherPositions : Std.ExtTreeMap String Nat}
    {id : String}
    (assertions
      : (other.assertionsOf id).map (fun node => (node.id, node.text? FieldKey.label))
        = (graph.assertionsOf id).map (fun node => (node.id, node.text? FieldKey.label)))
    (counted
      : ∀ id,
          (other.incoming id).filter (other.counts otherPositions)
          = (graph.incoming id).filter (graph.counts positions))
    : other.requirementCoverage otherPositions id = graph.requirementCoverage positions id := by
  -- The report in terms of the two things that are given.
  have read (any : Graph) (positions : Std.ExtTreeMap String Nat)
      : any.requirementCoverage positions id
        = let direct := (any.incoming id).filter (any.counts positions)
          let assertions := (any.assertionsOf id).map (fun node =>
            (node.id, node.text? FieldKey.label))
          let isCovered (assertion : String × Option String) : Bool :=
            ((any.incoming assertion.1).filter (any.counts positions)).any (fun _ => true)
              || direct.any (fun edge => edge.letters.contains (assertion.2.getD ""))
          let letters := assertions.filterMap Prod.snd
          let covered := (assertions.filter isCovered).filterMap Prod.snd
          { id, letters, covered, fraction := coveredShare letters covered (direct ≠ []) } := by
    simp only [requirementCoverage, List.filterMap_map, List.filter_map, Function.comp_def,
      List.any_filter, Bool.and_true]
  rw [read, read, assertions]
  simp only [counted]

/-- The assertions of a node bear the same labels in graphs with the same entries. -/
theorem SameEntries.labels_eq (same : graph.SameEntries other) (id : String)
    : (other.assertionsOf id).map (fun node => (node.id, node.text? FieldKey.label))
      = (graph.assertionsOf id).map (fun node => (node.id, node.text? FieldKey.label)) := by
  have read (any : Graph)
      : (any.assertionsOf id).map (fun node => (node.id, node.text? FieldKey.label))
        = (((any.node? id).map (fun node => node.list FieldKey.assertions)).getD []).filterMap
            (fun letter => (any.node? (assertionId id letter)).map (fun node =>
              (node.id, node.text? FieldKey.label))) := by
    rw [assertionsOf]
    cases any.node? id with
    | none => rfl
    | some node => exact List.map_filterMap
  rw [read, read, same.map_node?_eq (fun _ => rfl)]
  refine List.filterMap_congr (fun letter _ => ?_)
  exact same.map_node?_eq (fun _ => rfl) _

-----------------------------------------------------------------------------------------
-- Without the edges along cycles
-----------------------------------------------------------------------------------------

/-- The graph without the edges that implement along a cycle. -/
def withoutCycleEdges (graph : Graph) : Graph :=
  graph.keepEdges (fun edge => !decide (graph.AlongCycle edge))

/-- Nothing leads back to itself any more. Witness: the first step of a way back would have been
an edge along the cycle that the way closes. -/
theorem Attached.cycles_withoutCycleEdges (attached : graph.Attached)
    : graph.withoutCycleEdges.cycles = [] := by
  rw [cycles_eq_nil_iff]
  intro id chain
  obtain ⟨next, leads, back⟩ := TransGen.head'_iff.mp chain
  obtain ⟨-, isNext, edge, -, kept, kind, rfl, belongs⟩ := attached.leads_keepEdges_iff.mp leads
  have step : graph.Leads edge.source next := attached.leads_of_keepEdges leads
  have return' : TransGen graph.Leads next edge.source ∨ next = edge.source := by
    rcases reflTransGen_iff_eq_or_transGen.mp back with same | further
    · exact Or.inr same.symm
    · exact Or.inl (TransGen.mono (fun _ _ => attached.leads_of_keepEdges) _ _ further)
  have onCycle : graph.OnOneCycle edge.source next := by
    rcases return' with further | same
    · exact ⟨.single step, further⟩
    · exact ⟨.single step, .single (same ▸ step)⟩
  rw [Bool.not_eq_true', decide_eq_false_iff_not] at kept
  exact kept ⟨kind, next, mem_requirementIds_iff.mpr isNext, belongs,
    listed_together_iff.mpr onCycle⟩

/-- Without cycles all that implements or validates counts. -/
theorem counts_of_acyclic (acyclic : graph.cycles = []) (edge : Edge)
    : graph.counts graph.cyclePositions edge = edge.kind.covers := by
  have none : ¬ graph.AlongCycle edge := by
    intro ⟨_, owner, _, _, cycle, listed, _⟩
    rw [acyclic] at listed
    exact absurd listed List.not_mem_nil
  rw [counts, Bool.eq_false_iff.mpr (isInCycle_iff.not.mpr none), Bool.not_false, Bool.and_true]

theorem sameEntries_withoutCycleEdges (graph : Graph)
    : graph.SameEntries graph.withoutCycleEdges :=
  graph.sameEntries_keepEdges _

theorem attached_withoutCycleEdges (graph : Graph) : graph.withoutCycleEdges.Attached :=
  graph.attached_keepEdges _

theorem Attached.edges_withoutCycleEdges (attached : graph.Attached)
    : graph.withoutCycleEdges.edges.toList
      = graph.edges.toList.filter (fun edge => ¬ graph.AlongCycle edge) := by
  rw [withoutCycleEdges, attached.edges_keepEdges]
  simp only [decide_not]

/-- The edges that count at a node are those that counted. -/
theorem Attached.counted_withoutCycleEdges (attached : graph.Attached) (id : String)
    : (graph.withoutCycleEdges.incoming id).filter
        (graph.withoutCycleEdges.counts graph.withoutCycleEdges.cyclePositions)
      = (graph.incoming id).filter (graph.counts graph.cyclePositions) := by
  have same := graph.sameEntries_withoutCycleEdges
  by_cases present : graph.contains id = true
  · rw [graph.attached_withoutCycleEdges.incoming_eq (same.contains_iff.mpr present),
      attached.incoming_eq present, attached.edges_withoutCycleEdges, List.filter_filter,
      List.filter_filter, List.filter_filter]
    refine List.filter_congr (fun edge _ => ?_)
    have along
        : decide (¬ graph.AlongCycle edge) = !graph.isInCycle graph.cyclePositions edge := by
      rw [decide_not, Bool.not_inj_iff, Bool.eq_iff_iff, decide_eq_true_eq, isInCycle_iff]
    rw [counts_of_acyclic attached.cycles_withoutCycleEdges, along, counts, Bool.and_comm,
      Bool.and_assoc, Bool.and_left_comm]
  · rw [incoming_of_absent (fun left => present (same.contains_iff.mp left)),
      incoming_of_absent present, List.filter_nil, List.filter_nil]

/-- Edges along cycles count for nothing. Without them a graph has the same nodes and all of its
other edges, it has no cycles, and each requirement has the coverage that it had. -/
theorem coverage_withoutCycleEdges (scheme : Scheme) (files : List ParsedFile)
    : let graph := assemble scheme files
      graph.SameEntries graph.withoutCycleEdges
      ∧ graph.withoutCycleEdges.edges.toList
        = graph.edges.toList.filter (fun edge => ¬ graph.AlongCycle edge)
      ∧ graph.withoutCycleEdges.Attached
      ∧ graph.withoutCycleEdges.cycles = []
      ∧ graph.withoutCycleEdges.coverage.requirements = graph.coverage.requirements := by
  intro graph
  have attached : graph.Attached := attached_assemble scheme files
  have same := graph.sameEntries_withoutCycleEdges
  refine ⟨same, attached.edges_withoutCycleEdges, graph.attached_withoutCycleEdges,
    attached.cycles_withoutCycleEdges, ?_⟩
  · have report (any : Graph)
        : any.coverage.requirements
          = (any.requirements.map Node.id).map (any.requirementCoverage any.cyclePositions) := by
      rw [List.map_map]
      rfl
    rw [report, report, same.requirementIds_eq]
    refine List.map_congr_left (fun id _ => ?_)
    exact requirementCoverage_congr (same.labels_eq id) attached.counted_withoutCycleEdges

end Traceability.Graph
