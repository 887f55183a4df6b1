import Std.Data.HashMap
import Traceability.ChangeSummary
import Traceability.Coverage.Basic

/-! A graph with an index of its edges.
The index finds the position of the edge that says the same without going through all edges. A
store carries the proof that it finds what going through them would.
-/

namespace Traceability

-----------------------------------------------------------------------------------------
-- Edges as keys
-----------------------------------------------------------------------------------------

/-- An edge as a key. Edges that say the same are the same key, on whatever line they stand. -/
structure EdgeKey where
  edge : Edge

namespace EdgeKey

instance : BEq EdgeKey where
  beq a b := a.edge.same b.edge

instance : Hashable EdgeKey where
  hash key :=
    mixHash (mixHash (hash key.edge.source) (hash key.edge.target))
      (mixHash (hash key.edge.kind.rank) (hash key.edge.letters))

theorem beq_eq (a b : EdgeKey) : (a == b) = a.edge.same b.edge := rfl

instance : EquivBEq EdgeKey where
  rfl := Edge.same_refl _
  symm same := (Edge.same_comm _ _).trans same
  trans first second := Edge.same_trans first second

/-- Keys that are the same have the same hash, as the line has no part in it. -/
instance : LawfulHashable EdgeKey where
  hash_eq a b same := by
    obtain ⟨source, target, kind, letters⟩ := Edge.same_iff.mp ((beq_eq a b).symm.trans same)
    simp only [hash, source, target, kind, letters]

end EdgeKey

-----------------------------------------------------------------------------------------
-- Changes that leave the edges as they are
-----------------------------------------------------------------------------------------

namespace Graph

theorem edges_updateMetrics (graph : Graph) (id : String) (f : Metrics → Metrics)
    : (graph.updateMetrics id f).edges = graph.edges := by
  rw [updateMetrics]
  split <;> rfl

theorem edges_recordCoverage (graph : Graph) (report : CoverageReport)
    : (graph.recordCoverage report).edges = graph.edges :=
  List.foldlRecOn (motive := fun after : Graph => after.edges = graph.edges) _ _ rfl
    (fun current same _ _ => (current.edges_updateMetrics _ _).trans same)

theorem edges_recordChanges (graph : Graph) (summary : ChangeSummary)
    : (graph.recordChanges summary).edges = graph.edges := by
  refine List.foldlRecOn (motive := fun after : Graph => after.edges = graph.edges) _ _ rfl ?_
  intro current same node _
  dsimp only
  split
  · exact (current.edges_updateMetrics _ _).trans same
  · exact same

theorem position?_eq_of_same (graph : Graph) {a b : Edge} (same : a.same b = true)
    : graph.position? a = graph.position? b := by
  rw [position?, position?, Edge.same_eq_of_same same]

theorem position?_addEdge {graph : Graph} {edge : Edge} (new : graph.position? edge = none)
    (other : Edge)
    : (graph.addEdge edge).position? other
      = (graph.position? other).or (if other.same edge then some graph.edges.size else none) := by
  rw [addEdge, new]
  exact Array.findIdx?_push

end Graph

-----------------------------------------------------------------------------------------
-- Stores
-----------------------------------------------------------------------------------------

/-- A graph and the position of each of its edges, by what the edge says. -/
structure Store where
  graph : Graph
  index : Std.HashMap EdgeKey Nat
  indexed : ∀ edge, index[EdgeKey.mk edge]? = graph.position? edge

namespace Store

/-- The positions of edges of which the first is at this position. Of edges that say the same
the first decides. -/
def indexFrom (position : Nat) : List Edge → Std.HashMap EdgeKey Nat
  | [] => ∅
  | edge :: rest => (indexFrom (position + 1) rest).insert ⟨edge⟩ position

theorem getElem?_indexFrom (position : Nat) (edges : List Edge) (edge : Edge)
    : (indexFrom position edges)[EdgeKey.mk edge]?
      = (edges.findIdx? (Edge.same edge)).map (· + position) := by
  induction edges generalizing position with
  | nil => exact Std.HashMap.getElem?_empty
  | cons first rest ih =>
      rw [indexFrom, Std.HashMap.getElem?_insert, List.findIdx?_cons, ih]
      simp only [EdgeKey.beq_eq, first.same_comm edge]
      split
      · simp only [Option.map_some, Nat.zero_add]
      · simp only [Option.map_map, Function.comp_def, Nat.add_assoc, Nat.add_comm 1]

/-- The store of a graph that was made without one. -/
def ofGraph (graph : Graph) : Store where
  graph
  index := indexFrom 0 graph.edges.toList
  indexed edge := by
    have listed := List.findIdx?_toArray (Edge.same edge) graph.edges.toList
    rw [Array.toArray_toList] at listed
    simp only [getElem?_indexFrom, Graph.position?, listed, Nat.add_zero, Option.map_id']

def empty : Store :=
  ofGraph {}

/-- A store with other facts about its nodes. -/
def withGraph (store : Store) (graph : Graph) (same : graph.edges = store.graph.edges)
    : Store where
  graph
  index := store.index
  indexed edge := by
    rw [store.indexed, Graph.position?, Graph.position?, same]

/-- Adds a node, or a duplicate if its identifier is taken, and tells which. -/
def addNode (store : Store) (node : Node) : Store × Bool :=
  (store.withGraph (store.graph.addNode node) (by rw [Graph.addNode]; split <;> rfl),
    !store.graph.contains node.id)

/-- Adds an edge that the index does not know. -/
def pushEdge (store : Store) (edge : Edge) (new : store.graph.position? edge = none)
    : Store where
  graph := store.graph.addEdge edge
  index := store.index.insert ⟨edge⟩ store.graph.edges.size
  indexed other := by
    rw [Std.HashMap.getElem?_insert, store.indexed, Graph.position?_addEdge new, EdgeKey.beq_eq,
      edge.same_comm other]
    by_cases same : other.same edge = true
    · -- An edge that says the same as the new one is as unknown as the new one.
      rw [if_pos same, store.graph.position?_eq_of_same same, new, if_pos same, Option.none_or]
    · rw [if_neg same, if_neg same, Option.or_none]

/-- Adds an edge unless there is one that says the same, and gives the position of either. -/
def addEdge (store : Store) (edge : Edge) : Store × Nat :=
  match found : store.index[EdgeKey.mk edge]? with
  | some position => (store, position)
  | none =>
      (store.pushEdge edge ((store.indexed edge).symm.trans found), store.graph.edges.size)

/-- Changes the metrics of a node that exists; they start out empty. -/
def updateMetrics (store : Store) (id : String) (f : Metrics → Metrics) : Store :=
  store.withGraph (store.graph.updateMetrics id f) (store.graph.edges_updateMetrics id f)

/-- Records the coverage of every requirement in its metrics. -/
def recordCoverage (store : Store) : Store :=
  store.withGraph (store.graph.recordCoverage store.graph.coverage)
    (store.graph.edges_recordCoverage _)

/-- Records the state of every file that has some change in the metrics of its nodes. -/
def recordChanges (store : Store) (summary : ChangeSummary) : Store :=
  store.withGraph (store.graph.recordChanges summary) (store.graph.edges_recordChanges summary)

end Store

end Traceability
