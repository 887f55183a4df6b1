import Traceability.Proofs.Graph.Operations

/-! What a store remembers of the operations that made it.
Operations come in any order, so an edge may be there before its ends and may end where it
starts. The invariant tells for every list of operations which edges are stored where, and which
of them each node records. It is carried through the cases of what an operation does.
-/

namespace Traceability

-----------------------------------------------------------------------------------------
-- The two lists of a node
-----------------------------------------------------------------------------------------

/-- Whether edges leave a node or arrive at it. -/
inductive Side where
  | outgoing
  | incoming

namespace Side

/-- The end of an edge that records it on this side. -/
def endOf (side : Side) (edge : Edge) : String :=
  match side with
  | .outgoing => edge.source
  | .incoming => edge.target

/-- The positions that a node records on this side. -/
def positions (side : Side) (node : Node) : Array Nat :=
  match side with
  | .outgoing => node.outgoing
  | .incoming => node.incoming

theorem positions_attach (side : Side) (edge : Edge) (position : Nat) (node : Node)
    : side.positions (node.attach edge position)
      = if node.id = side.endOf edge then (side.positions node).push position
        else side.positions node := by
  cases side <;> rfl

end Side

namespace Store

-----------------------------------------------------------------------------------------
-- First insertions
-----------------------------------------------------------------------------------------

/-- None of the operations adds an edge that says the same. -/
def Unsaid (operations : List Operation) (edge : Edge) : Prop :=
  ∀ other, .addEdge other ∈ operations → edge.same other = false

/-- After the operations `before`, an edge is added that no operation has added yet. It comes
behind the edges that are stored then. -/
structure FirstInserted (operations before : List Operation) (edge : Edge) (position : Nat)
    : Prop where
  performed : before ++ [.addEdge edge] <+: operations
  unsaid : Unsaid before edge
  behind : (after before).graph.edges.size = position

variable {operations before : List Operation} {operation : Operation} {edge : Edge}
  {position : Nat}

theorem not_firstInserted_nil : ¬ FirstInserted [] before edge position := by
  intro first
  exact absurd (List.prefix_nil.mp first.performed) (by simp)

theorem FirstInserted.earlier (first : FirstInserted operations before edge position)
    : before <+: operations :=
  (List.prefix_append before _).trans first.performed

/-- A further operation is a first insertion or leaves the first insertions as they are. -/
theorem firstInserted_append_iff
    : FirstInserted (operations ++ [operation]) before edge position
      ↔ FirstInserted operations before edge position
        ∨ before = operations
          ∧ operation = .addEdge edge
          ∧ Unsaid operations edge
          ∧ (after operations).graph.edges.size = position := by
  constructor
  · intro ⟨performed, unsaid, behind⟩
    rcases List.prefix_concat_iff.mp performed with last | earlier
    · obtain ⟨rfl, rfl⟩ := List.append_singleton_inj.mp last
      exact Or.inr ⟨rfl, rfl, unsaid, behind⟩
    · exact Or.inl ⟨earlier, unsaid, behind⟩
  · rintro (⟨performed, unsaid, behind⟩ | ⟨rfl, rfl, unsaid, behind⟩)
    · exact ⟨performed.trans (List.prefix_append _ _), unsaid, behind⟩
    · exact ⟨List.prefix_rfl, unsaid, behind⟩

theorem unsaid_append_iff
    : Unsaid (operations ++ [operation]) edge
      ↔ Unsaid operations edge ∧ ∀ other, operation = .addEdge other → edge.same other = false := by
  simp only [Unsaid, List.mem_append, List.mem_singleton, or_imp, forall_and, eq_comm]

-----------------------------------------------------------------------------------------
-- The invariant
-----------------------------------------------------------------------------------------

/-- What a graph holds after operations: each edge at the position where it was first inserted,
once, and at each node the edges that were first inserted with this end while it was there. -/
structure Recorded (operations : List Operation) (graph : Graph) : Prop where
  unsaid : ∀ edge, graph.position? edge = none ↔ Unsaid operations edge
  stored
    : ∀ position edge,
        graph.edges[position]? = some edge
        ↔ ∃ before, FirstInserted operations before edge position
  distinct : graph.edges.toList.Pairwise (fun a b => a.same b = false)
  positions
    : ∀ (side : Side) id node, graph.node? id = some node → ∀ position,
        position ∈ side.positions node
        ↔ ∃ before edge,
            FirstInserted operations before edge position
            ∧ side.endOf edge = id
            ∧ (after before).graph.contains id = true
  ascending
    : ∀ (side : Side) id node, graph.node? id = some node →
        (side.positions node).toList.Pairwise (· < ·)
  measured : graph.Measured

theorem recorded_nil : Recorded [] {} where
  unsaid edge := by simp [Graph.position?, Unsaid]
  stored position edge := by simp [not_firstInserted_nil]
  distinct := .nil
  positions side id node found := by simp [Graph.node?] at found
  ascending side id node found := by simp [Graph.node?] at found
  measured := Graph.measured_empty

namespace Recorded

variable {graph next : Graph}

theorem lt_size (recorded : Recorded operations graph)
    (first : FirstInserted operations before edge position)
    : position < graph.edges.size := by
  have here := (recorded.stored position edge).mpr ⟨before, first⟩
  exact (Array.getElem?_eq_some_iff.mp here).1

/-- An operation that inserts no edge leaves what is recorded to the nodes that were there. -/
theorem of_no_insertion (recorded : Recorded operations graph)
    (edges : next.edges = graph.edges)
    (unsaid : ∀ edge, Unsaid (operations ++ [operation]) edge ↔ Unsaid operations edge)
    (first
      : ∀ before edge position,
          FirstInserted (operations ++ [operation]) before edge position
          ↔ FirstInserted operations before edge position)
    (nodes
      : ∀ (side : Side) id node, next.node? id = some node →
          (∃ old, graph.node? id = some old ∧ side.positions node = side.positions old)
          ∨ graph.contains id = false ∧ side.positions node = #[])
    (own : graph = (after operations).graph) (measured : next.Measured)
    : Recorded (operations ++ [operation]) next where
  unsaid edge := by
    rw [unsaid, ← recorded.unsaid, Graph.position?, Graph.position?, edges]
  stored position edge := by simp only [edges, recorded.stored, first]
  distinct := edges ▸ recorded.distinct
  positions side id node found position := by
    simp only [first]
    rcases nodes side id node found with ⟨old, look, same⟩ | ⟨absent, none⟩
    · rw [same]
      exact recorded.positions side id old look position
    · -- A node that was not there is in none of the graphs before.
      refine iff_of_false (by simp [none]) ?_
      rintro ⟨before, edge, inserted, -, present⟩
      have still := contains_after_of_earlier inserted.earlier present
      rw [← own, absent] at still
      cases still
  ascending side id node found := by
    rcases nodes side id node found with ⟨old, look, same⟩ | ⟨-, none⟩
    · rw [same]
      exact recorded.ascending side id old look
    · rw [none]
      exact .nil
  measured := measured

/-- Other operations than additions of edges insert no edge. -/
theorem unsaid_iff_of_other (other : ∀ edge, operation ≠ .addEdge edge) (edge : Edge)
    : Unsaid (operations ++ [operation]) edge ↔ Unsaid operations edge := by
  rw [unsaid_append_iff]
  exact and_iff_left (fun added same => absurd same (other added))

theorem firstInserted_iff_of_other (other : ∀ edge, operation ≠ .addEdge edge)
    (before : List Operation) (edge : Edge) (position : Nat)
    : FirstInserted (operations ++ [operation]) before edge position
      ↔ FirstInserted operations before edge position := by
  rw [firstInserted_append_iff]
  exact or_iff_left (fun last => other edge last.2.1)

/-- What a node records after an edge was inserted. -/
theorem exists_firstInserted_append_iff (recorded : Recorded operations graph)
    (own : graph = (after operations).graph) (new : graph.position? edge = none) (side : Side)
    {id : String} (present : graph.contains id = true) (position : Nat)
    : (∃ before other,
        FirstInserted (operations ++ [.addEdge edge]) before other position
        ∧ side.endOf other = id
        ∧ (after before).graph.contains id = true)
      ↔ (∃ before other,
          FirstInserted operations before other position
          ∧ side.endOf other = id
          ∧ (after before).graph.contains id = true)
        ∨ side.endOf edge = id ∧ position = graph.edges.size := by
  constructor
  · rintro ⟨before, other, first, ends, there⟩
    rcases firstInserted_append_iff.mp first with earlier | ⟨rfl, same, -, rfl⟩
    · exact Or.inl ⟨before, other, earlier, ends, there⟩
    · cases same
      exact Or.inr ⟨ends, by rw [own]⟩
  · rintro (⟨before, other, first, ends, there⟩ | ⟨ends, rfl⟩)
    · exact ⟨before, other, firstInserted_append_iff.mpr (Or.inl first), ends, there⟩
    · refine ⟨operations, edge, firstInserted_append_iff.mpr (Or.inr ?_), ends, own ▸ present⟩
      exact ⟨rfl, rfl, (recorded.unsaid edge).mp new, by rw [own]⟩

/-- A new edge is stored behind the others and recorded at those of its ends that are there. -/
theorem insert (recorded : Recorded operations graph) (own : graph = (after operations).graph)
    (new : graph.position? edge = none)
    : Recorded (operations ++ [.addEdge edge]) (graph.addEdge edge) := by
  have fresh : (graph.position? edge).isSome = false := by
    rw [new]
    rfl
  have unknown : ∀ stored ∈ graph.edges, edge.same stored = false :=
    Array.findIdx?_eq_none_iff.mp new
  have edges : (graph.addEdge edge).edges = graph.edges.push edge := Graph.edges_addEdge fresh
  refine {
    unsaid := ?_
    stored := ?_
    distinct := ?_
    positions := ?_
    ascending := ?_
    measured := ?_
  }
  · intro other
    rw [unsaid_append_iff, ← recorded.unsaid, Graph.position?_addEdge new,
      Option.or_eq_none_iff]
    simp
  · intro position other
    rw [edges, Array.getElem?_push]
    by_cases last : position = graph.edges.size
    · subst last
      rw [if_pos rfl]
      constructor
      · rintro same
        cases same
        exact ⟨operations, firstInserted_append_iff.mpr
          (Or.inr ⟨rfl, rfl, (recorded.unsaid edge).mp new, by rw [own]⟩)⟩
      · rintro ⟨before, first⟩
        rcases firstInserted_append_iff.mp first with earlier | ⟨-, same, -, -⟩
        · exact absurd (recorded.lt_size earlier) (Nat.lt_irrefl _)
        · cases same
          rfl
    · rw [if_neg last, recorded.stored]
      refine exists_congr (fun before => ?_)
      rw [firstInserted_append_iff]
      refine (or_iff_left ?_).symm
      rintro ⟨-, -, -, size⟩
      exact last (by rw [own, size])
  · rw [edges, Array.toList_push, List.pairwise_append]
    refine ⟨recorded.distinct, List.pairwise_singleton _ _, ?_⟩
    intro stored member other single
    cases List.mem_singleton.mp single
    exact (stored.same_comm edge).trans (unknown stored (Array.mem_toList_iff.mp member))
  · intro side id node found position
    rw [Graph.node?_addEdge fresh] at found
    obtain ⟨old, look, rfl⟩ := Option.map_eq_some_iff.mp found
    have present : graph.contains id = true := Graph.contains_iff.mpr ⟨old, look⟩
    rw [recorded.exists_firstInserted_append_iff own new side present,
      ← recorded.positions side id old look, Side.positions_attach, Graph.id_of_node? look]
    by_cases ends : side.endOf edge = id
    · rw [if_pos ends.symm, Array.mem_push, and_iff_right ends]
    · rw [if_neg (Ne.symm ends), or_iff_left (fun last => ends last.1)]
  · intro side id node found
    rw [Graph.node?_addEdge fresh] at found
    obtain ⟨old, look, rfl⟩ := Option.map_eq_some_iff.mp found
    have ascending := recorded.ascending side id old look
    rw [Side.positions_attach]
    split
    · rw [Array.toList_push, List.pairwise_append]
      refine ⟨ascending, List.pairwise_singleton _ _, ?_⟩
      intro earlier member last single
      cases List.mem_singleton.mp single
      obtain ⟨before, other, first, -⟩ :=
        (recorded.positions side id old look earlier).mp (Array.mem_toList_iff.mp member)
      exact recorded.lt_size first
    · exact ascending
  · intro id metrics found
    rw [Graph.metrics_addEdge] at found
    exact Graph.contains_addEdge.mpr (recorded.measured id metrics found)

/-- An edge that is there already is no first insertion. -/
theorem again (recorded : Recorded operations graph) (own : graph = (after operations).graph)
    {position : Nat} (known : graph.position? edge = some position)
    : Recorded (operations ++ [.addEdge edge]) graph := by
  refine recorded.of_no_insertion rfl (fun other => ?_) (fun before other place => ?_)
    (fun side id node found => Or.inl ⟨node, found, rfl⟩) own recorded.measured
  · rw [unsaid_append_iff]
    refine and_iff_left_of_imp (fun unsaid added same => ?_)
    cases same
    refine Bool.eq_false_iff.mpr (fun agrees => ?_)
    have absent := (recorded.unsaid other).mpr unsaid
    rw [graph.position?_eq_of_same agrees, known] at absent
    cases absent
  · rw [firstInserted_append_iff]
    refine or_iff_left ?_
    rintro ⟨-, same, unsaid, -⟩
    cases same
    have absent := (recorded.unsaid edge).mpr unsaid
    rw [known] at absent
    cases absent

/-- What is recorded goes on being recorded with every operation. -/
theorem perform (recorded : Recorded operations graph) (own : graph = (after operations).graph)
    (performs : operation.Performs graph next)
    : Recorded (operations ++ [operation]) next := by
  cases performs with
  | @stored node created new =>
      have other (edge : Edge) : Operation.addNode node created ≠ .addEdge edge := by simp
      refine recorded.of_no_insertion (graph.edges_addNode node) (unsaid_iff_of_other other)
        (firstInserted_iff_of_other other) (fun side id found look => ?_) own ?_
      · rw [Graph.node?_addNode, Option.or_eq_some_iff] at look
        rcases look with old | ⟨absent, own⟩
        · exact Or.inl ⟨found, old, rfl⟩
        · obtain ⟨rfl, same⟩ := Option.ite_none_right_eq_some.mp own
          cases same
          refine Or.inr ⟨?_, ?_⟩
          · rw [← Bool.not_eq_true, Graph.contains_iff, absent]
            simp
          · cases side with
            | outgoing => exact created.1
            | incoming => exact created.2
      · intro id metrics found
        rw [Graph.metrics_addNode] at found
        exact Graph.contains_addNode.mpr (Or.inl (recorded.measured id metrics found))
  | @rejected node created existing taken =>
      have other (edge : Edge) : Operation.addNode node created ≠ .addEdge edge := by simp
      exact recorded.of_no_insertion rfl (unsaid_iff_of_other other)
        (firstInserted_iff_of_other other)
        (fun side id found look => Or.inl ⟨found, look, rfl⟩) own recorded.measured
  | inserted new => exact recorded.insert own new
  | known found => exact recorded.again own found
  | measured other measured =>
      exact recorded.of_no_insertion rfl (unsaid_iff_of_other other)
        (firstInserted_iff_of_other other)
        (fun side id found look => Or.inl ⟨found, look, rfl⟩) own (measured recorded.measured)

end Recorded

/-- The invariant holds after all operations, by induction from the last one. -/
theorem recorded_after (operations : List Operation)
    : Recorded operations (after operations).graph := by
  induction operations using List.reverseRecOn with
  | nil => exact recorded_nil
  | append_singleton operations operation ih =>
      rw [after_append_singleton, graph_apply]
      exact ih.perform rfl (operation.performs _)

-----------------------------------------------------------------------------------------
-- Reachable stores
-----------------------------------------------------------------------------------------

/-- Of stored edges only one says the same as a given edge. -/
theorem Recorded.position?_eq {graph : Graph} (recorded : Recorded operations graph)
    {stored : Edge} (here : graph.edges[position]? = some stored)
    (same : edge.same stored = true)
    : graph.position? edge = some position := by
  obtain ⟨bound, own⟩ := Array.getElem?_eq_some_iff.mp here
  rw [Graph.position?, Array.findIdx?_eq_some_iff_getElem]
  refine ⟨bound, own ▸ same, fun earlier before agrees => ?_⟩
  have apart := List.pairwise_iff_getElem.mp recorded.distinct earlier position
    (Nat.lt_trans before bound) bound before
  rw [Array.getElem_toList, Array.getElem_toList, own,
    ← Edge.same_eq_of_same agrees, same] at apart
  cases apart

/-- What holds of every store that operations make of an empty one, in whatever order they come.
No two stored edges say the same. An edge that says the same as a stored one is answered with the
position of that one and changes nothing, and any other edge comes behind the stored ones, which
stay where they are. A node records on each side, in ascending order, the edges with this end that
were first inserted while it was there, and stays as it is apart from them. A node whose
identifier is taken only adds a duplicate, and only nodes have metrics. -/
theorem after_invariant (operations : List Operation)
    : let store := after operations
      store.graph.edges.toList.Pairwise (fun a b => a.same b = false)
        ∧ (∀ edge position stored,
            store.graph.edges[position]? = some stored → edge.same stored = true →
            store.addEdge edge = (store, position))
        ∧ (∀ edge, (∀ stored ∈ store.graph.edges, edge.same stored = false) →
            (store.addEdge edge).2 = store.graph.edges.size
            ∧ (store.addEdge edge).1.graph.edges[store.graph.edges.size]? = some edge
            ∧ ∀ earlier < store.graph.edges.size,
                (store.addEdge edge).1.graph.edges[earlier]? = store.graph.edges[earlier]?)
        ∧ (∀ position edge,
            store.graph.edges[position]? = some edge
            ↔ ∃ before, FirstInserted operations before edge position)
        ∧ (∀ (side : Side) id node, store.graph.node? id = some node →
            (side.positions node).toList.Pairwise (· < ·)
            ∧ ∀ position,
                position ∈ side.positions node
                ↔ ∃ before edge,
                    FirstInserted operations before edge position
                    ∧ side.endOf edge = id
                    ∧ (after before).graph.contains id = true)
        ∧ (∀ later id node, store.graph.node? id = some node →
            ∃ current,
              (after (operations ++ later)).graph.node? id = some current
              ∧ current.bare = node.bare)
        ∧ (∀ node existing, store.graph.node? node.id = some existing →
            (store.addNode node).2 = false
            ∧ (store.addNode node).1.index = store.index
            ∧ (store.addNode node).1.graph
              = { store.graph with
                  duplicates :=
                    store.graph.duplicates ++ [⟨node.id, existing.source, node.source⟩] })
        ∧ ∀ id metrics,
            store.graph.metrics[id]? = some metrics → store.graph.contains id = true := by
  intro store
  have recorded : Recorded operations store.graph := recorded_after operations
  refine ⟨recorded.distinct, ?_, ?_, recorded.stored, ?_, ?_, ?_, recorded.measured⟩
  · intro edge position stored here same
    exact addEdge_of_position? (recorded.position?_eq here same)
  · intro edge unknown
    have new : store.graph.position? edge = none := Array.findIdx?_eq_none_iff.mpr unknown
    obtain ⟨added, place⟩ := addEdge_of_new new
    have edges : (store.addEdge edge).1.graph.edges = store.graph.edges.push edge := by
      rw [added, Graph.edges_addEdge (by rw [new]; rfl)]
    rw [edges]
    refine ⟨place, Array.getElem?_push_size, fun earlier before => ?_⟩
    rw [Array.getElem?_push, if_neg (Nat.ne_of_lt before)]
  · intro side id node found
    exact ⟨recorded.ascending side id node found, recorded.positions side id node found⟩
  · intro later id node found
    exact Graph.bare?_eq_some_iff.mp
      (bare?_after_of_earlier (List.prefix_append operations later) (Graph.bare?_of_node? found))
  · intro node existing taken
    have present : store.graph.contains node.id = true := Graph.contains_iff.mpr ⟨existing, taken⟩
    exact ⟨by rw [addNode, present]; rfl, rfl, Graph.addNode_of_taken taken⟩

/-- An edge before its ends, a node that refers to itself, and a second definition of it. -/
def tangledOperations : List Operation :=
  let node (line : Nat) : Node := ⟨"a", .code, "a", ∅, ⟨"a.rs", line, line⟩, #[], #[]⟩
  [.addEdge ⟨"b", "a", .implements, [], 1⟩, .addNode (node 1) ⟨rfl, rfl⟩,
    .addEdge ⟨"a", "a", .refines, [], 2⟩, .addNode (node 9) ⟨rfl, rfl⟩,
    .addEdge ⟨"b", "a", .implements, [], 7⟩, .addEdge ⟨"a", "b", .refines, [], 3⟩]

theorem after_invariant_tangledOperations
    : let store := after tangledOperations
      (store.graph.node? "a").map (fun node =>
            (node.source.startLine, node.outgoing, node.incoming))
          = some (1, #[1, 2], #[1])
        ∧ store.graph.duplicates = [⟨"a", ⟨"a.rs", 1, 1⟩, ⟨"a.rs", 9, 9⟩⟩]
        ∧ store.graph.edges[0]? = some ⟨"b", "a", .implements, [], 1⟩
        ∧ store.addEdge ⟨"b", "a", .implements, [], 5⟩ = (store, 0) := by
  intro store
  have made : store.graph = tangledOperations.foldl Operation.perform {} :=
    graph_after tangledOperations
  have first : store.graph.edges[0]? = some ⟨"b", "a", .implements, [], 1⟩ := by
    rw [made]
    decide +kernel
  refine ⟨?_, ?_, first, (after_invariant tangledOperations).2.1 _ _ _ first rfl⟩
  · rw [made]
    decide +kernel
  · rw [made]
    decide +kernel

end Store

end Traceability
