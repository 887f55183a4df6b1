import Traceability.Proofs.Coverage.Definition

/-! Graphs with some of their edges taken out.
The nodes stay and record anew the edges that are left. What holds of an assembled graph holds
of what is left of it.
-/

namespace Traceability

theorem Keyed.bare {nodes : Std.ExtTreeMap String Node} (keyed : Keyed nodes)
    : Keyed (nodes.map (fun _ => Node.bare)) := by
  intro id entry look
  rw [Std.ExtTreeMap.getElem?_map] at look
  obtain ⟨node, found, rfl⟩ := Option.map_eq_some_iff.mp look
  exact show node.id = id from keyed id node found

namespace Graph

/-- The nodes of a graph without any edge. -/
def withoutEdges (graph : Graph) : Graph :=
  { graph with
    nodes := graph.nodes.map (fun _ => Node.bare)
    edges := #[]
    keyed := graph.keyed.bare }

/-- The graph with those of its edges that pass a test. -/
def keepEdges (graph : Graph) (keep : Edge → Bool) : Graph :=
  (graph.edges.toList.filter keep).foldl addEdge graph.withoutEdges

variable {scheme : Scheme} {graph : Graph}

theorem node?_withoutEdges (graph : Graph) (id : String)
    : graph.withoutEdges.node? id = graph.bare? id :=
  Std.ExtTreeMap.getElem?_map

theorem attached_withoutEdges (graph : Graph) : graph.withoutEdges.Attached where
  outgoing id node found := by
    rw [node?_withoutEdges] at found
    obtain ⟨own, -, rfl⟩ := bare?_eq_some_iff.mp found
    rfl
  incoming id node found := by
    rw [node?_withoutEdges] at found
    obtain ⟨own, -, rfl⟩ := bare?_eq_some_iff.mp found
    rfl
  distinct := .nil

theorem sameEntries_keepEdges (graph : Graph) (keep : Edge → Bool)
    : graph.SameEntries (graph.keepEdges keep) := by
  intro id
  rw [keepEdges, bare?_foldl_addEdge, bare?, node?_withoutEdges, bare?, Option.map_map]
  rfl

theorem attached_keepEdges (graph : Graph) (keep : Edge → Bool)
    : (graph.keepEdges keep).Attached :=
  List.foldlRecOn _ _ graph.attached_withoutEdges
    (fun _ attached edge _ => attached.addEdge edge)

/-- The edges that are left stand in the order in which they stood. -/
theorem Attached.edges_keepEdges (attached : graph.Attached) (keep : Edge → Bool)
    : (graph.keepEdges keep).edges.toList = graph.edges.toList.filter keep := by
  rw [keepEdges, toList_edges_foldl_addEdge]
  have distinct
      : ([] ++ graph.edges.toList.filter keep).Pairwise (fun a b => Edge.same b a = false) :=
    attached.distinct.filter keep
  exact foldl_insertEdge_of_distinct distinct

theorem Attached.mem_keepEdges_iff (attached : graph.Attached) {keep : Edge → Bool} {edge : Edge}
    : edge ∈ (graph.keepEdges keep).edges ↔ edge ∈ graph.edges ∧ keep edge = true := by
  rw [← Array.mem_toList_iff, attached.edges_keepEdges, List.mem_filter, Array.mem_toList_iff]

/-- The edges that are left lead where they led. -/
theorem Attached.leads_keepEdges_iff (attached : graph.Attached) {keep : Edge → Bool}
    {source target : String}
    : (graph.keepEdges keep).Leads source target
      ↔ graph.isRequirement source = true
        ∧ graph.isRequirement target = true
        ∧ ∃ edge ∈ graph.edges,
            keep edge = true
            ∧ edge.kind = .implements
            ∧ edge.source = source
            ∧ graph.Belongs edge.target target := by
  have same := graph.sameEntries_keepEdges keep
  simp only [Leads, same.isRequirement_iff, attached.mem_keepEdges_iff, same.names_iff, and_assoc]
  rfl

theorem Attached.leads_of_keepEdges (attached : graph.Attached) {keep : Edge → Bool}
    {source target : String} (leads : (graph.keepEdges keep).Leads source target)
    : graph.Leads source target := by
  obtain ⟨first, last, edge, member, -, rest⟩ := attached.leads_keepEdges_iff.mp leads
  exact ⟨first, last, edge, member, rest⟩

/-- A graph that records its edges exactly records those that leave a node. -/
theorem Attached.wired (attached : graph.Attached)
    (sources : ∀ edge ∈ graph.edges, graph.contains edge.source = true)
    : graph.Wired where
  sources := sources
  outgoing id node found position := by
    rw [← Array.mem_toList_iff, attached.outgoing id node found, mem_positionsOf_iff]
    simp

theorem Faithful.keepEdges (faithful : graph.Faithful scheme) (keep : Edge → Bool)
    : (graph.keepEdges keep).Faithful scheme := by
  have same := graph.sameEntries_keepEdges keep
  have attached := graph.attached_keepEdges keep
  refine {
    assembled := {
      wired := attached.wired (fun edge member => ?_)
      owned := fun id entry found kind => ?_
      capital := fun id entry found => faithful.assembled.capital id entry (same id ▸ found)
    }
    attached
    lettered := faithful.lettered.congr same
  }
  · rw [same.contains_iff]
    exact faithful.assembled.wired.sources edge (faithful.attached.mem_keepEdges_iff.mp member).1
  · obtain ⟨name, named, requirement⟩ := faithful.assembled.owned id entry (same id ▸ found) kind
    exact ⟨name, named, same.isRequirement_iff.mpr requirement⟩

end Graph

end Traceability
