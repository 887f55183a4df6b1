import Traceability.Graph.Assembly
import Traceability.Proofs.Graph.Nodes

/-! What insertion does to a graph.
A new node leaves every other node as it was. A new edge changes nothing of a node but the
positions of its edges, and each node keeps the positions of exactly the edges that leave it.
-/

namespace Traceability

-----------------------------------------------------------------------------------------
-- Nodes apart from their edges
-----------------------------------------------------------------------------------------

namespace Node

/-- A node without the positions of its edges. -/
def bare (node : Node) : Node :=
  { node with outgoing := #[], incoming := #[] }

/-- A node after an edge was inserted at a position. -/
def attach (edge : Edge) (position : Nat) (node : Node) : Node :=
  { node with
    outgoing := if node.id = edge.source then node.outgoing.push position else node.outgoing
    incoming := if node.id = edge.target then node.incoming.push position else node.incoming }

theorem fields_of_bare {a b : Node} (h : a.bare = b.bare) : a.fields = b.fields :=
  congrArg (fun node => node.fields) h

end Node

namespace Graph

/-- What a graph keeps under an identifier, apart from edges. -/
def bare? (graph : Graph) (id : String) : Option Node :=
  (graph.node? id).map Node.bare

theorem bare?_eq_some_iff {graph : Graph} {id : String} {entry : Node}
    : graph.bare? id = some entry ↔ ∃ node, graph.node? id = some node ∧ node.bare = entry :=
  Option.map_eq_some_iff

theorem bare?_of_node? {graph : Graph} {id : String} {node : Node}
    (found : graph.node? id = some node)
    : graph.bare? id = some node.bare := by
  rw [bare?, found]
  rfl

theorem contains_iff_bare? {graph : Graph} {id : String}
    : graph.contains id = true ↔ ∃ entry, graph.bare? id = some entry := by
  rw [contains_iff]
  constructor
  · intro ⟨node, found⟩
    exact ⟨node.bare, bare?_of_node? found⟩
  · intro ⟨entry, kept⟩
    obtain ⟨node, found, -⟩ := bare?_eq_some_iff.mp kept
    exact ⟨node, found⟩

theorem isRequirement_iff_bare? {graph : Graph} {id : String}
    : graph.isRequirement id = true
      ↔ ∃ entry, graph.bare? id = some entry ∧ entry.kind = .requirement := by
  rw [isRequirement_iff]
  constructor
  · intro ⟨node, found, kind⟩
    exact ⟨node.bare, bare?_of_node? found, kind⟩
  · intro ⟨entry, kept, kind⟩
    obtain ⟨node, found, rfl⟩ := bare?_eq_some_iff.mp kept
    exact ⟨node, found, kind⟩

-----------------------------------------------------------------------------------------
-- Insertion of a node
-----------------------------------------------------------------------------------------

/-- A node that is present stays, and the new one is kept only under a free identifier. -/
theorem node?_addNode (graph : Graph) (node : Node) (id : String)
    : (graph.addNode node).node? id
      = (graph.node? id).or (if node.id = id then some node else none) := by
  rw [addNode]
  split
  · next existing present =>
      by_cases same : node.id = id
      · subst same
        rw [present, Option.some_or]
        exact present
      · rw [if_neg same, Option.or_none]
        rfl
  · next absent =>
      by_cases same : node.id = id
      · subst same
        rw [absent, Option.none_or, if_pos rfl]
        exact Std.ExtTreeMap.getElem?_insert_self
      · simp [node?, Std.ExtTreeMap.getElem?_insert, same]

theorem edges_addNode (graph : Graph) (node : Node)
    : (graph.addNode node).edges = graph.edges := by
  rw [addNode]
  split <;> rfl

theorem files_addNode (graph : Graph) (node : Node) : (graph.addNode node).files = graph.files := by
  rw [addNode]
  split <;> rfl

theorem metrics_addNode (graph : Graph) (node : Node)
    : (graph.addNode node).metrics = graph.metrics := by
  rw [addNode]
  split <;> rfl

theorem duplicates_addNode (graph : Graph) (node : Node)
    : (graph.addNode node).duplicates
      = graph.duplicates
        ++ ((graph.node? node.id).map (fun existing =>
            ⟨node.id, existing.source, node.source⟩)).toList := by
  rw [addNode]
  split
  · next existing present => rw [present, Option.map_some, Option.toList_some]
  · next absent => rw [absent, Option.map_none, Option.toList_none, List.append_nil]

/-- A node adds a duplicate exactly if its identifier is taken. -/
theorem duplicates_addNode_iff {graph : Graph} {node : Node}
    : (graph.addNode node).duplicates = []
      ↔ graph.duplicates = [] ∧ graph.contains node.id = false := by
  rw [addNode, ← Bool.not_eq_true, contains_iff]
  split
  · next existing present => simp [present]
  · next absent => simp [absent]

theorem contains_addNode {graph : Graph} {node : Node} {id : String}
    : (graph.addNode node).contains id = true ↔ graph.contains id = true ∨ node.id = id := by
  simp only [contains_iff, node?_addNode]
  cases graph.node? id <;> simp

-----------------------------------------------------------------------------------------
-- Insertion of an edge
-----------------------------------------------------------------------------------------

theorem node?_updateNode (graph : Graph) (id : String) (f : Node → Node)
    (keeps : ∀ node, (f node).id = node.id) (other : String)
    : (graph.updateNode id f keeps).node? other
      = (graph.node? other).map (fun node => if node.id = id then f node else node) := by
  simp only [node?, updateNode, Std.ExtTreeMap.getElem?_alter, Std.LawfulEqCmp.compare_eq_iff_eq]
  by_cases same : id = other
  · subst same
    rw [if_pos rfl]
    refine Option.map_congr (fun node found => ?_)
    rw [if_pos (graph.keyed id node found)]
  · rw [if_neg same]
    cases found : graph.nodes[other]? with
    | none => rfl
    | some node =>
        have distinct : node.id ≠ id := by
          rw [graph.keyed other node found]
          exact Ne.symm same
        simp [distinct]

/-- An edge that is there already changes nothing. -/
theorem addEdge_of_present {graph : Graph} {edge : Edge}
    (present : (graph.position? edge).isSome = true)
    : graph.addEdge edge = graph := by
  rw [addEdge, if_pos present]

theorem node?_addEdge {graph : Graph} {edge : Edge}
    (new : (graph.position? edge).isSome = false) (id : String)
    : (graph.addEdge edge).node? id
      = (graph.node? id).map (Node.attach edge graph.edges.size) := by
  have looked
      : (graph.addEdge edge).node? id
        = ((graph.updateNode edge.source
            (fun node => { node with outgoing := node.outgoing.push graph.edges.size })
            (fun _ => rfl)).updateNode edge.target
            (fun node => { node with incoming := node.incoming.push graph.edges.size })
            (fun _ => rfl)).node? id := by
    rw [addEdge, new]
    rfl
  rw [looked, node?_updateNode, node?_updateNode, Option.map_map]
  refine Option.map_congr (fun node _ => ?_)
  simp only [Function.comp_apply, Node.attach]
  by_cases leaves : node.id = edge.source <;> simp only [leaves, if_true, if_false]
    <;> split <;> rfl

theorem edges_addEdge {graph : Graph} {edge : Edge}
    (new : (graph.position? edge).isSome = false)
    : (graph.addEdge edge).edges = graph.edges.push edge := by
  rw [addEdge, new]
  rfl

theorem mem_edges_addEdge {graph : Graph} {edge other : Edge}
    (member : other ∈ (graph.addEdge edge).edges)
    : other ∈ graph.edges ∨ other = edge := by
  cases new : (graph.position? edge).isSome with
  | true =>
      rw [addEdge_of_present new] at member
      exact Or.inl member
  | false =>
      rw [edges_addEdge new] at member
      exact Array.mem_push.mp member

theorem duplicates_addEdge (graph : Graph) (edge : Edge)
    : (graph.addEdge edge).duplicates = graph.duplicates := by
  rw [addEdge]
  split <;> rfl

theorem files_addEdge (graph : Graph) (edge : Edge) : (graph.addEdge edge).files = graph.files := by
  rw [addEdge]
  split <;> rfl

theorem metrics_addEdge (graph : Graph) (edge : Edge)
    : (graph.addEdge edge).metrics = graph.metrics := by
  rw [addEdge]
  split <;> rfl

/-- Edges change nothing of a node but the positions of its edges. -/
theorem bare?_addEdge (graph : Graph) (edge : Edge) (id : String)
    : (graph.addEdge edge).bare? id = graph.bare? id := by
  cases new : (graph.position? edge).isSome with
  | true => rw [addEdge_of_present new]
  | false =>
      rw [bare?, bare?, node?_addEdge new, Option.map_map]
      rfl

theorem bare?_foldl_addEdge (edges : List Edge) (graph : Graph) (id : String)
    : (edges.foldl addEdge graph).bare? id = graph.bare? id := by
  induction edges generalizing graph with
  | nil => rfl
  | cons edge rest ih => rw [List.foldl_cons, ih, bare?_addEdge]

theorem contains_addEdge {graph : Graph} {edge : Edge} {id : String}
    : (graph.addEdge edge).contains id = true ↔ graph.contains id = true := by
  rw [contains_iff_bare?, contains_iff_bare?, bare?_addEdge]

-----------------------------------------------------------------------------------------
-- The edges that leave a node
-----------------------------------------------------------------------------------------

/-- The source of every edge is present and keeps the positions of the edges that leave it. -/
structure Wired (graph : Graph) : Prop where
  sources : ∀ edge ∈ graph.edges, graph.contains edge.source = true
  outgoing
    : ∀ id node, graph.node? id = some node → ∀ position,
        position ∈ node.outgoing
        ↔ ∃ edge, graph.edges[position]? = some edge ∧ edge.source = id

theorem Wired.mem_outgoing_iff {graph : Graph} (wired : graph.Wired) {id : String} {edge : Edge}
    : edge ∈ graph.outgoing id ↔ edge ∈ graph.edges ∧ edge.source = id := by
  constructor
  · intro member
    rw [Graph.outgoing] at member
    split at member
    · next node found =>
        obtain ⟨position, kept, here⟩ := List.mem_filterMap.mp member
        obtain ⟨other, there, leaves⟩ :=
          (wired.outgoing id node found position).mp (Array.mem_toList_iff.mp kept)
        rw [here, Option.some.injEq] at there
        exact ⟨Array.mem_of_getElem? here, there ▸ leaves⟩
    · exact absurd member List.not_mem_nil
  · intro given
    obtain ⟨member, rfl⟩ := given
    obtain ⟨node, found⟩ := contains_iff.mp (wired.sources edge member)
    obtain ⟨position, here⟩ := Array.mem_iff_getElem?.mp member
    rw [Graph.outgoing, found]
    refine List.mem_filterMap.mpr ⟨position, ?_, here⟩
    exact Array.mem_toList_iff.mpr
      ((wired.outgoing edge.source node found position).mpr ⟨edge, here, rfl⟩)

theorem wired_empty : ({} : Graph).Wired where
  sources := by simp
  outgoing id node found := by simp [node?] at found

/-- No edge leaves a new node yet. -/
theorem Wired.addNode {graph : Graph} (wired : graph.Wired) {node : Node}
    (unattached : node.outgoing = #[])
    : (graph.addNode node).Wired where
  sources edge member := by
    rw [edges_addNode] at member
    exact contains_addNode.mpr (Or.inl (wired.sources edge member))
  outgoing id found look position := by
    rw [edges_addNode]
    rw [node?_addNode, Option.or_eq_some_iff] at look
    rcases look with old | ⟨absent, new⟩
    · exact wired.outgoing id found old position
    · split at new
      · obtain rfl := Option.some.inj new
        refine iff_of_false (by simp [unattached]) ?_
        intro given
        obtain ⟨edge, here, rfl⟩ := given
        obtain ⟨source, present⟩ :=
          contains_iff.mp (wired.sources edge (Array.mem_of_getElem? here))
        rw [absent] at present
        exact absurd present (by simp)
      · exact absurd new (by simp)

/-- A new edge is recorded at its source, which is present. -/
theorem Wired.addEdge {graph : Graph} (wired : graph.Wired) {edge : Edge}
    (present : graph.contains edge.source = true)
    : (graph.addEdge edge).Wired := by
  cases new : (graph.position? edge).isSome with
  | true =>
      rw [addEdge_of_present new]
      exact wired
  | false =>
      refine { sources := ?_, outgoing := ?_ }
      · intro other member
        rcases mem_edges_addEdge member with old | rfl
        · exact contains_addEdge.mpr (wired.sources other old)
        · exact contains_addEdge.mpr present
      · intro id found look position
        rw [node?_addEdge new] at look
        obtain ⟨node, old, rfl⟩ := Option.map_eq_some_iff.mp look
        have kept := wired.outgoing id node old position
        rw [edges_addEdge new, Array.getElem?_push]
        simp only [Node.attach, id_of_node? old]
        by_cases here : position = graph.edges.size
        · subst here
          have fresh : ¬ graph.edges.size ∈ node.outgoing := by
            rw [kept]
            simp
          by_cases leaves : id = edge.source
          · simp [leaves]
          · simp [leaves, fresh, Ne.symm leaves]
        · rw [if_neg here, ← kept]
          split
          · rw [Array.mem_push, or_iff_left here]
          · exact Iff.rfl

end Graph

end Traceability
