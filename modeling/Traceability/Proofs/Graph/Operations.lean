import Traceability.Graph.Store
import Traceability.Proofs.Graph.Insertion
import Traceability.Proofs.Graph.Metrics

/-! Operations on a store.
The index answers what going through the edges would, so operations make of the graph of a store
what they make of a graph without an index. What one operation does is said once, by the cases it
can meet.
-/

namespace Traceability

-----------------------------------------------------------------------------------------
-- Operations
-----------------------------------------------------------------------------------------

/-- What is done to a store from outside. A node is created without edges. -/
inductive Operation where
  | addNode (node : Node) (created : node.outgoing = #[] ∧ node.incoming = #[])
  | addEdge (edge : Edge)
  | updateMetrics (id : String) (f : Metrics → Metrics)
  | recordCoverage
  | recordChanges (summary : ChangeSummary)

/-- A graph after an operation, with no index. -/
def Operation.perform (graph : Graph) : Operation → Graph
  | .addNode node _ => graph.addNode node
  | .addEdge edge => graph.addEdge edge
  | .updateMetrics id f => graph.updateMetrics id f
  | .recordCoverage => graph.recordCoverage graph.coverage
  | .recordChanges summary => graph.recordChanges summary

namespace Store

def apply (store : Store) : Operation → Store
  | .addNode node _ => (store.addNode node).1
  | .addEdge edge => (store.addEdge edge).1
  | .updateMetrics id f => store.updateMetrics id f
  | .recordCoverage => store.recordCoverage
  | .recordChanges summary => store.recordChanges summary

/-- The store after operations on an empty one. -/
def after (operations : List Operation) : Store :=
  operations.foldl apply empty

theorem after_append_singleton (operations : List Operation) (operation : Operation)
    : after (operations ++ [operation]) = (after operations).apply operation := by
  simp only [after, List.foldl_append, List.foldl_cons, List.foldl_nil]

theorem addEdge_of_position? {store : Store} {edge : Edge} {position : Nat}
    (known : store.graph.position? edge = some position)
    : store.addEdge edge = (store, position) := by
  have found := (store.indexed edge).trans known
  rw [addEdge]
  split
  · next other here =>
      rw [found] at here
      cases here
      rfl
  · next absent =>
      rw [found] at absent
      cases absent

theorem addEdge_of_new {store : Store} {edge : Edge}
    (new : store.graph.position? edge = none)
    : (store.addEdge edge).1.graph = store.graph.addEdge edge
      ∧ (store.addEdge edge).2 = store.graph.edges.size := by
  have absent := (store.indexed edge).trans new
  rw [addEdge]
  split
  · next position here =>
      rw [absent] at here
      cases here
  · exact ⟨rfl, rfl⟩

theorem graph_addEdge (store : Store) (edge : Edge)
    : (store.addEdge edge).1.graph = store.graph.addEdge edge := by
  cases known : store.graph.position? edge with
  | none => exact (addEdge_of_new known).1
  | some position =>
      rw [addEdge_of_position? known, Graph.addEdge_of_present (by rw [known]; rfl)]

/-- The index has no say in what becomes of the graph. -/
theorem graph_apply (store : Store) (operation : Operation)
    : (store.apply operation).graph = operation.perform store.graph := by
  cases operation with
  | addEdge edge => exact store.graph_addEdge edge
  | addNode | updateMetrics | recordCoverage | recordChanges => rfl

theorem graph_after (operations : List Operation)
    : (after operations).graph = operations.foldl Operation.perform {} := by
  induction operations using List.reverseRecOn with
  | nil => rfl
  | append_singleton operations operation ih =>
      rw [after_append_singleton, graph_apply, ih, List.foldl_append, List.foldl_cons,
        List.foldl_nil]

end Store

-----------------------------------------------------------------------------------------
-- What one operation does
-----------------------------------------------------------------------------------------

/-- The graph after an operation, by what the operation meets. -/
inductive Operation.Performs (graph : Graph) : Operation → Graph → Prop
  | stored {node created} (new : graph.node? node.id = none)
    : Performs graph (.addNode node created) (graph.addNode node)
  | rejected {node created existing} (taken : graph.node? node.id = some existing)
    : Performs graph (.addNode node created)
        { graph with
          duplicates := graph.duplicates ++ [⟨node.id, existing.source, node.source⟩] }
  | inserted {edge} (new : graph.position? edge = none)
    : Performs graph (.addEdge edge) (graph.addEdge edge)
  | known {edge position} (found : graph.position? edge = some position)
    : Performs graph (.addEdge edge) graph
  | measured {operation metrics} (other : ∀ edge, operation ≠ .addEdge edge)
    (measured : graph.Measured → Graph.Measured { graph with metrics })
    : Performs graph operation { graph with metrics }

theorem Graph.addNode_of_taken {graph : Graph} {node existing : Node}
    (taken : graph.node? node.id = some existing)
    : graph.addNode node
      = { graph with
          duplicates := graph.duplicates ++ [⟨node.id, existing.source, node.source⟩] } := by
  rw [addNode, taken]

theorem Operation.performs (graph : Graph) (operation : Operation)
    : Performs graph operation (operation.perform graph) := by
  cases operation with
  | addNode node created =>
      rw [perform]
      cases look : graph.node? node.id with
      | none => exact .stored look
      | some existing =>
          rw [Graph.addNode_of_taken look]
          exact .rejected look
  | addEdge edge =>
      rw [perform]
      cases look : graph.position? edge with
      | none => exact .inserted look
      | some position =>
          rw [Graph.addEdge_of_present (by rw [look]; rfl)]
          exact .known look
  | updateMetrics id f =>
      obtain ⟨metrics, only⟩ := graph.updateMetrics_eq id f
      rw [perform, only]
      exact .measured (by simp) (fun measured => only ▸ measured.updateMetrics id f)
  | recordCoverage =>
      obtain ⟨metrics, only⟩ := graph.recordCoverage_eq graph.coverage
      rw [perform, only]
      exact .measured (by simp) (fun measured => only ▸ measured.recordCoverage _)
  | recordChanges summary =>
      obtain ⟨metrics, only⟩ := graph.recordChanges_eq summary
      rw [perform, only]
      exact .measured (by simp) (fun measured => only ▸ measured.recordChanges summary)

namespace Store

-----------------------------------------------------------------------------------------
-- Nodes stay
-----------------------------------------------------------------------------------------

theorem bare?_of_performs {graph next : Graph} {operation : Operation}
    (performs : operation.Performs graph next) {id : String} {entry : Node}
    (kept : graph.bare? id = some entry)
    : next.bare? id = some entry := by
  cases performs with
  | stored new =>
      obtain ⟨node, found, rfl⟩ := Graph.bare?_eq_some_iff.mp kept
      refine Graph.bare?_of_node? ?_
      rw [Graph.node?_addNode, found, Option.some_or]
  | inserted new => rw [Graph.bare?_addEdge, kept]
  | rejected | known | measured => exact kept

/-- No operation changes a node that is stored, apart from its edges. -/
theorem bare?_apply {store : Store} {id : String} {entry : Node}
    (kept : store.graph.bare? id = some entry) (operation : Operation)
    : (store.apply operation).graph.bare? id = some entry := by
  rw [graph_apply]
  exact bare?_of_performs (operation.performs store.graph) kept

theorem bare?_after_of_earlier {before operations : List Operation}
    (earlier : before <+: operations) {id : String} {entry : Node}
    (kept : (after before).graph.bare? id = some entry)
    : (after operations).graph.bare? id = some entry := by
  obtain ⟨later, rfl⟩ := earlier
  rw [after, List.foldl_append]
  exact List.foldlRecOn (motive := fun store : Store => store.graph.bare? id = some entry)
    later apply kept (fun _ kept operation _ => bare?_apply kept operation)

theorem contains_after_of_earlier {before operations : List Operation}
    (earlier : before <+: operations) {id : String}
    (present : (after before).graph.contains id = true)
    : (after operations).graph.contains id = true := by
  obtain ⟨entry, kept⟩ := Graph.contains_iff_bare?.mp present
  exact Graph.contains_iff_bare?.mpr ⟨entry, bare?_after_of_earlier earlier kept⟩

end Store

end Traceability
