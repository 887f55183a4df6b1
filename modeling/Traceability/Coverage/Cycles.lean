import Traceability.Coverage.Traversal
import Traceability.Graph.Basic

/-! Cycles of requirements that implement one another.
A requirement leads to the owners of what its IMPLEMENTS edges target. The cycles are the strongly
connected components of that which have several members, and the requirements that lead to
themselves.
-/

namespace Traceability.Graph

/-- Adds the step from the source of an edge to the owner of its target. -/
def addStep (graph : Graph) (adjacency : Adjacency) (edge : Edge) : Adjacency :=
  match graph.isRequirement edge.source, graph.owner? edge.target with
  | true, some owner =>
      adjacency.alter edge.source (fun targets => some ((targets.getD ∅).insert owner.id))
  | _, _ => adjacency

/-- The owners of what the IMPLEMENTS edges of each requirement target. -/
def implementsMap (graph : Graph) : Adjacency :=
  (graph.edgesOfKind .implements).foldl graph.addStep
    (graph.requirements.foldl (fun adjacency node => adjacency.insert node.id ∅) ∅)

/-- The cycles: each is the sorted list of its members, and the cycles are sorted. -/
def cycles (graph : Graph) : List (List String) :=
  let adjacency := graph.implementsMap
  let components :=
    adjacency.cyclicComponents adjacency.transposed ∅ adjacency.finishOrder
  components.mergeSort (fun a b => (compare a b).isLE)

end Traceability.Graph
