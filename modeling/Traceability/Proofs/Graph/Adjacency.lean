import Traceability.Proofs.Graph.Blocks

/-! Nodes record their edges exactly.
An edge is recorded at those of its ends that are present when it is inserted. While nodes are
still being added, both ends of every edge are present, and afterwards no node is new. So each
node records the positions of all edges that leave it and of all that arrive, and of no others.
-/

namespace Traceability

-----------------------------------------------------------------------------------------
-- Positions in a list
-----------------------------------------------------------------------------------------

/-- The positions of the items that pass the test, in order. -/
def positionsOf {α : Type} (test : α → Bool) (items : List α) : List Nat :=
  (List.range items.length).filter (fun position => items[position]?.any test)

section Positions

variable {α : Type} {test : α → Bool}

theorem mem_positionsOf_iff {items : List α} {position : Nat}
    : position ∈ positionsOf test items
      ↔ ∃ item, items[position]? = some item ∧ test item = true := by
  rw [positionsOf, List.mem_filter, List.mem_range, Option.any_eq_true]
  refine and_iff_right_of_imp (fun ⟨item, here, _⟩ => ?_)
  exact (List.getElem?_eq_some_iff.mp here).1

theorem lt_of_mem_positionsOf {items : List α} {position : Nat}
    (member : position ∈ positionsOf test items)
    : position < items.length :=
  List.mem_range.mp (List.mem_of_mem_filter member)

theorem positionsOf_append_singleton (test : α → Bool) (items : List α) (item : α)
    : positionsOf test (items ++ [item])
      = positionsOf test items ++ if test item then [items.length] else [] := by
  have before : (List.range items.length).filter
      (fun position => (items ++ [item])[position]?.any test) = positionsOf test items := by
    refine List.filter_congr (fun position member => ?_)
    rw [List.getElem?_append_left (List.mem_range.mp member)]
  rw [positionsOf, List.length_append, List.length_singleton, List.range_succ, List.filter_append,
    before, List.filter_singleton]
  simp

/-- The items at the positions are the items that pass the test. Witness: induction from the end
of the list, where a further item changes no earlier position. -/
theorem filterMap_positionsOf (test : α → Bool) (items : List α)
    : (positionsOf test items).filterMap (fun position => items[position]?)
      = items.filter test := by
  induction items using List.reverseRecOn with
  | nil => rfl
  | append_singleton items item ih =>
      have before
          : (positionsOf test items).filterMap (fun position => (items ++ [item])[position]?)
            = items.filter test := by
        rw [← ih]
        refine List.filterMap_congr (fun position member => ?_)
        rw [List.getElem?_append_left (lt_of_mem_positionsOf member)]
      rw [positionsOf_append_singleton, List.filterMap_append, before, List.filter_append]
      cases passes : test item <;> simp [passes]

/-- Where nothing passes the test there is no position. -/
theorem positionsOf_eq_nil {items : List α} (none : ∀ item ∈ items, test item = false)
    : positionsOf test items = [] := by
  refine List.filter_eq_nil_iff.mpr (fun position member => ?_)
  rw [List.getElem?_eq_getElem (List.mem_range.mp member)]
  simp [none]

end Positions

-----------------------------------------------------------------------------------------
-- Graphs whose nodes record their edges
-----------------------------------------------------------------------------------------

namespace Graph

/-- Every node records the positions of exactly the edges that leave it and of exactly those that
arrive, and no two edges say the same. -/
structure Attached (graph : Graph) : Prop where
  outgoing
    : ∀ id node, graph.node? id = some node →
        node.outgoing.toList
          = positionsOf (fun edge : Edge => decide (edge.source = id)) graph.edges.toList
  incoming
    : ∀ id node, graph.node? id = some node →
        node.incoming.toList
          = positionsOf (fun edge : Edge => decide (edge.target = id)) graph.edges.toList
  distinct : graph.edges.toList.Pairwise (fun a b => Edge.same b a = false)

/-- Both ends of every edge are present. -/
def Closed (graph : Graph) : Prop :=
  ∀ edge ∈ graph.edges, graph.contains edge.source = true ∧ graph.contains edge.target = true

variable {graph : Graph}

theorem attached_empty : ({} : Graph).Attached where
  outgoing id node found := by simp [node?] at found
  incoming id node found := by simp [node?] at found
  distinct := .nil

theorem closed_empty : ({} : Graph).Closed := by
  simp [Closed]

/-- Only the nodes and the edges matter. -/
theorem Attached.congr {other : Graph} (attached : graph.Attached)
    (nodes : other.nodes = graph.nodes) (edges : other.edges = graph.edges)
    : other.Attached := by
  cases graph
  cases other
  cases nodes
  cases edges
  exact ⟨attached.outgoing, attached.incoming, attached.distinct⟩

theorem Closed.congr {other : Graph} (closed : graph.Closed)
    (nodes : other.nodes = graph.nodes) (edges : other.edges = graph.edges)
    : other.Closed := by
  cases graph
  cases other
  cases nodes
  cases edges
  exact closed

/-- No edge has a new node as an end yet. -/
theorem Attached.addNode (attached : graph.Attached) (closed : graph.Closed) {node : Node}
    (bare : node.bare = node)
    : (graph.addNode node).Attached := by
  -- A node that is recorded as new was not there, so it is no end of an edge.
  have new {id : String} {found : Node} (look : (graph.addNode node).node? id = some found)
      : graph.node? id = some found
        ∨ found.bare = found ∧ ∀ edge ∈ graph.edges, edge.source ≠ id ∧ edge.target ≠ id := by
    rw [node?_addNode, Option.or_eq_some_iff] at look
    rcases look with old | ⟨absent, new⟩
    · exact Or.inl old
    · obtain ⟨-, same⟩ := Option.ite_none_right_eq_some.mp new
      refine Or.inr ⟨Option.some.inj same ▸ bare, fun edge member => ?_⟩
      have absent' : ¬ graph.contains id = true := by
        rw [contains_iff, absent]
        simp
      exact ⟨fun same => absent' (same ▸ (closed edge member).1),
        fun same => absent' (same ▸ (closed edge member).2)⟩
  constructor
  · intro id found look
    rw [edges_addNode]
    rcases new look with old | ⟨bare, apart⟩
    · exact attached.outgoing id found old
    · rw [← bare, positionsOf_eq_nil]
      · rfl
      · intro edge member
        simpa using (apart edge (Array.mem_toList_iff.mp member)).1
  · intro id found look
    rw [edges_addNode]
    rcases new look with old | ⟨bare, apart⟩
    · exact attached.incoming id found old
    · rw [← bare, positionsOf_eq_nil]
      · rfl
      · intro edge member
        simpa using (apart edge (Array.mem_toList_iff.mp member)).2
  · rw [edges_addNode]
    exact attached.distinct

theorem Closed.addNode (closed : graph.Closed) (node : Node) : (graph.addNode node).Closed := by
  intro edge member
  rw [edges_addNode] at member
  obtain ⟨source, target⟩ := closed edge member
  exact ⟨contains_addNode.mpr (Or.inl source), contains_addNode.mpr (Or.inl target)⟩

/-- A new edge is recorded at both of its ends, as far as they are present. -/
theorem Attached.addEdge (attached : graph.Attached) (edge : Edge)
    : (graph.addEdge edge).Attached := by
  cases new : (graph.position? edge).isSome with
  | true =>
      rw [addEdge_of_present new]
      exact attached
  | false =>
      have edges : (graph.addEdge edge).edges.toList = graph.edges.toList ++ [edge] := by
        rw [edges_addEdge new, Array.toList_push]
      constructor
      · intro id found look
        rw [node?_addEdge new] at look
        obtain ⟨node, old, rfl⟩ := Option.map_eq_some_iff.mp look
        rw [edges, positionsOf_append_singleton, ← attached.outgoing id node old, Node.attach,
          id_of_node? old]
        by_cases leaves : id = edge.source
        · simp [leaves]
        · simp [leaves, Ne.symm leaves]
      · intro id found look
        rw [node?_addEdge new] at look
        obtain ⟨node, old, rfl⟩ := Option.map_eq_some_iff.mp look
        rw [edges, positionsOf_append_singleton, ← attached.incoming id node old, Node.attach,
          id_of_node? old]
        by_cases arrives : id = edge.target
        · simp [arrives]
        · simp [arrives, Ne.symm arrives]
      · rw [edges, List.pairwise_append]
        refine ⟨attached.distinct, List.pairwise_singleton _ _, ?_⟩
        intro other member last single
        rw [List.mem_singleton.mp single]
        rw [Option.isSome_eq_false_iff, Option.isNone_iff_eq_none, position?,
          Array.findIdx?_eq_none_iff] at new
        exact new other (Array.mem_toList_iff.mp member)

theorem Closed.addEdge (closed : graph.Closed) {edge : Edge}
    (source : graph.contains edge.source = true) (target : graph.contains edge.target = true)
    : (graph.addEdge edge).Closed := by
  intro other member
  rw [contains_addEdge, contains_addEdge]
  rcases mem_edges_addEdge member with old | rfl
  · exact closed other old
  · exact ⟨source, target⟩

/-- The edges that a node records are those that arrive at it, in the order of insertion. -/
theorem Attached.incoming_eq (attached : graph.Attached) {id : String}
    (present : graph.contains id = true)
    : graph.incoming id
      = graph.edges.toList.filter (fun edge : Edge => decide (edge.target = id)) := by
  obtain ⟨node, found⟩ := contains_iff.mp present
  rw [Graph.incoming, found]
  simp only [edgesAt, attached.incoming id node found, ← Array.getElem?_toList,
    filterMap_positionsOf]

theorem Attached.outgoing_eq (attached : graph.Attached) {id : String}
    (present : graph.contains id = true)
    : graph.outgoing id
      = graph.edges.toList.filter (fun edge : Edge => decide (edge.source = id)) := by
  obtain ⟨node, found⟩ := contains_iff.mp present
  rw [Graph.outgoing, found]
  simp only [edgesAt, attached.outgoing id node found, ← Array.getElem?_toList,
    filterMap_positionsOf]

theorem Attached.mem_incoming_iff (attached : graph.Attached) {id : String}
    (present : graph.contains id = true) {edge : Edge}
    : edge ∈ graph.incoming id ↔ edge ∈ graph.edges ∧ edge.target = id := by
  rw [attached.incoming_eq present, List.mem_filter, Array.mem_toList_iff, decide_eq_true_eq]

theorem outgoing_of_absent {id : String} (absent : ¬ graph.contains id = true)
    : graph.outgoing id = [] := by
  rw [contains_iff, not_exists] at absent
  rw [Graph.outgoing]
  split
  · next node found => exact absurd found (absent node)
  · rfl

theorem incoming_of_absent {id : String} (absent : ¬ graph.contains id = true)
    : graph.incoming id = [] := by
  rw [contains_iff, not_exists] at absent
  rw [Graph.incoming]
  split
  · next node found => exact absurd found (absent node)
  · rfl

end Graph

-----------------------------------------------------------------------------------------
-- Assembled graphs
-----------------------------------------------------------------------------------------

namespace Assembly

theorem attached_foldl_addAssertion {path requirement : String} (assertions : List Assertion)
    {graph : Graph} (attached : graph.Attached) (closed : graph.Closed)
    (present : graph.contains requirement = true)
    : (assertions.foldl (addAssertion path requirement) graph).Attached
      ∧ (assertions.foldl (addAssertion path requirement) graph).Closed := by
  induction assertions generalizing graph with
  | nil => exact ⟨attached, closed⟩
  | cons assertion rest ih =>
      let node := assertionNode path requirement assertion
      have added : (graph.addNode node).Attached := attached.addNode closed rfl
      have closed := closed.addNode node
      have owner : (graph.addNode node).contains requirement = true :=
        Graph.contains_addNode.mpr (Or.inl present)
      have own : (graph.addNode node).contains node.id = true :=
        Graph.contains_addNode.mpr (Or.inr rfl)
      rw [List.foldl_cons, addAssertion]
      split
      · exact ih added closed owner
      · exact ih (added.addEdge _) (closed.addEdge owner own)
          (Graph.contains_addEdge.mpr owner)

/-- A block keeps the records of edges exact. -/
theorem Adds.attached {path : String} {block : Block} {graph next : Graph}
    (adds : Adds path block graph next) (attached : graph.Attached) (closed : graph.Closed)
    : next.Attached ∧ next.Closed := by
  cases adds with
  | nothing => exact ⟨attached, closed⟩
  | duplicate taken =>
      obtain ⟨existing, present⟩ := Graph.contains_iff.mp taken
      rw [Graph.addNode, present]
      exact ⟨attached.congr rfl rfl, closed.congr rfl rfl⟩
  | journey content =>
      exact ⟨attached.addNode closed (bare_journeyNode path block _), closed.addNode _⟩
  | reference content =>
      exact ⟨attached.addNode closed rfl, closed.addNode _⟩
  | requirement content new =>
      refine attached_foldl_addAssertion _ ?_ (closed.addNode _) ?_
      · exact attached.addNode closed (bare_requirementNode path block _)
      · exact Graph.contains_addNode.mpr (Or.inr (id_requirementNode path block _))

/-- While nodes are added, every edge is recorded at both of its ends. -/
theorem attached_foldl_addFile (files : List ParsedFile)
    : (files.foldl addFile {}).graph.Attached ∧ (files.foldl addFile {}).graph.Closed := by
  refine foldl_addFile_induction (motive := fun graph => graph.Attached ∧ graph.Closed)
    ⟨Graph.attached_empty, Graph.closed_empty⟩ ?_ ?_
  · intro graph path facts ⟨attached, closed⟩
    exact ⟨attached.congr rfl rfl, closed.congr rfl rfl⟩
  · intro file _ block _ graph next adds ⟨attached, closed⟩
    exact adds.attached attached closed

end Assembly

/-- Every graph that is assembled from files records its edges exactly. -/
theorem Graph.attached_assemble (scheme : Scheme) (files : List ParsedFile)
    : (Graph.assemble scheme files).Attached := by
  refine Assembly.finish_induction (Assembly.attached_foldl_addFile files).1 ?_ ?_
  · intro graph attached reference _ edge _
    exact attached.addEdge edge
  · intro graph roots attached
    exact attached.congr rfl rfl

end Traceability
