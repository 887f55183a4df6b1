import Traceability.Proofs.Graph.Adjacency
import Traceability.Proofs.Graph.Lettering

/-! Comparing graphs.
Two graphs are compared by what they keep under each identifier and by their lists of edges. The
positions that nodes record follow from the list of edges, so they are not compared.
-/

namespace Traceability

-----------------------------------------------------------------------------------------
-- Lists of edges
-----------------------------------------------------------------------------------------

/-- Adds an edge to a list unless there is one that says the same. -/
def insertEdge (edges : List Edge) (edge : Edge) : List Edge :=
  if edges.any (Edge.same edge) then edges else edges ++ [edge]

/-- Edges that say the same have the same ends. -/
theorem Edge.ends_of_same {a b : Edge} (same : Edge.same a b = true)
    : a.source = b.source ∧ a.target = b.target := by
  obtain ⟨source, target, -, -⟩ := Edge.same_iff.mp same
  exact ⟨source, target⟩

/-- Edges that differ from each other are all added. -/
theorem foldl_insertEdge_of_distinct {edges more : List Edge}
    (distinct : (edges ++ more).Pairwise (fun a b => Edge.same b a = false))
    : more.foldl insertEdge edges = edges ++ more := by
  induction more generalizing edges with
  | nil => rw [List.foldl_nil, List.append_nil]
  | cons edge rest ih =>
      have new : edges.any (Edge.same edge) = false := by
        rw [List.any_eq_false]
        intro other member
        rw [Bool.not_eq_true]
        exact (List.pairwise_append.mp distinct).2.2 other member edge List.mem_cons_self
      rw [List.append_cons] at distinct
      rw [List.foldl_cons, insertEdge, new, if_neg Bool.false_ne_true, ih distinct,
        ← List.append_cons]

namespace Graph

theorem toList_edges_addEdge (graph : Graph) (edge : Edge)
    : (graph.addEdge edge).edges.toList = insertEdge graph.edges.toList edge := by
  have there
      : graph.edges.toList.any (Edge.same edge) = (graph.position? edge).isSome := by
    rw [position?, Array.findIdx?_isSome, Array.any_toList]
  rw [insertEdge, there]
  cases new : (graph.position? edge).isSome with
  | true =>
      rw [addEdge_of_present new]
      rfl
  | false =>
      rw [edges_addEdge new, Array.toList_push]
      rfl

theorem mem_edges_addEdge_of_mem {graph : Graph} {edge other : Edge} (member : other ∈ graph.edges)
    : other ∈ (graph.addEdge edge).edges := by
  rw [← Array.mem_toList_iff] at member ⊢
  rw [toList_edges_addEdge, insertEdge]
  split
  · exact member
  · exact List.mem_append_left _ member

theorem toList_edges_foldl_addEdge (edges : List Edge) (graph : Graph)
    : (edges.foldl addEdge graph).edges.toList = edges.foldl insertEdge graph.edges.toList := by
  induction edges generalizing graph with
  | nil => rfl
  | cons edge rest ih => rw [List.foldl_cons, List.foldl_cons, ih, toList_edges_addEdge]

-----------------------------------------------------------------------------------------
-- What is kept under identifiers
-----------------------------------------------------------------------------------------

end Graph

/-- What a node is to other nodes: its kind, the letters that it lists, the requirement that it
names, and its own letter. -/
structure Role where
  kind : NodeKind
  letters : List String
  requirement? : Option String
  letter? : Option String

def Node.role (node : Node) : Role where
  kind := node.kind
  letters := node.list FieldKey.assertions
  requirement? := node.text? FieldKey.requirement
  letter? := node.text? FieldKey.label

namespace Graph

/-- Every node has the same role in both graphs. -/
def SameRoles (graph other : Graph) : Prop :=
  ∀ id, (other.node? id).map Node.role = (graph.node? id).map Node.role

/-- Both graphs keep the same under every identifier, apart from edges. -/
def SameEntries (graph other : Graph) : Prop :=
  ∀ id, other.bare? id = graph.bare? id

/-- The nodes of a kind without the positions of their edges. -/
def entriesOfKind (graph : Graph) (kind : NodeKind) : List Node :=
  (graph.nodesOfKind kind).map Node.bare

theorem mem_entriesOfKind_iff {graph : Graph} {kind : NodeKind} {entry : Node}
    : entry ∈ graph.entriesOfKind kind
      ↔ graph.bare? entry.id = some entry ∧ entry.kind = kind := by
  rw [entriesOfKind, List.mem_map, bare?_eq_some_iff]
  constructor
  · intro given
    obtain ⟨node, member, rfl⟩ := given
    obtain ⟨found, kind⟩ := mem_nodesOfKind_iff.mp member
    exact ⟨⟨node, found, rfl⟩, kind⟩
  · intro given
    obtain ⟨⟨node, found, rfl⟩, kind⟩ := given
    exact ⟨node, mem_nodesOfKind_iff.mpr ⟨found, kind⟩, rfl⟩

/-- What is read off the nodes of a kind is read off their entries, if the positions of edges
have no say in it. -/
theorem flatMap_nodesOfKind (graph : Graph) (kind : NodeKind) {β : Type} {read : Node → List β}
    (bare : ∀ node, read node.bare = read node)
    : (graph.nodesOfKind kind).flatMap read = (graph.entriesOfKind kind).flatMap read := by
  rw [entriesOfKind, List.flatMap_map]
  exact List.flatMap_congr (fun node _ => (bare node).symm)

/-- The owner of a target, apart from edges, follows from what is kept. -/
theorem bare_owner? (graph : Graph) (target : String)
    : (graph.owner? target).map Node.bare
      = (graph.bare? target).bind (fun entry =>
          match entry.kind with
          | .requirement => some entry
          | .assertion => (entry.text? FieldKey.requirement).bind graph.bare?
          | _ => none) := by
  rw [owner?, bare?]
  cases graph.node? target with
  | none => rfl
  | some node =>
      have kind : node.bare.kind = node.kind := rfl
      have named : node.bare.text? FieldKey.requirement = node.text? FieldKey.requirement := rfl
      simp only [Option.map_some, Option.bind_some, kind, named]
      cases node.kind with
      | assertion => exact Option.map_bind
      | _ => rfl

theorem entriesOfKind_ordered (graph : Graph) (kind : NodeKind)
    : (graph.entriesOfKind kind).Pairwise (fun a b => a.id < b.id) :=
  List.pairwise_map.mpr (graph.nodesOfKind_ordered kind)

namespace SameRoles

variable {graph other : Graph}

theorem symm (same : graph.SameRoles other) : other.SameRoles graph :=
  fun id => (same id).symm

/-- A node has a counterpart with the same role. -/
theorem exists_node (same : graph.SameRoles other) {id : String} {node : Node}
    (found : graph.node? id = some node)
    : ∃ copy, other.node? id = some copy ∧ copy.role = node.role := by
  have role := same id
  rw [found] at role
  exact Option.map_eq_some_iff.mp role

theorem isRequirement_iff (same : graph.SameRoles other) {id : String}
    : other.isRequirement id = true ↔ graph.isRequirement id = true := by
  have kept {graph other : Graph} (same : graph.SameRoles other)
      (requirement : graph.isRequirement id = true)
      : other.isRequirement id = true := by
    obtain ⟨node, found, kind⟩ := Graph.isRequirement_iff.mp requirement
    obtain ⟨copy, there, role⟩ := same.exists_node found
    exact Graph.isRequirement_iff.mpr ⟨copy, there, (congrArg Role.kind role).trans kind⟩
  exact ⟨kept same.symm, kept same⟩

/-- Assertions name the same requirements. -/
theorem names_iff (same : graph.SameRoles other) {target id : String}
    : (∃ node,
          other.node? target = some node
          ∧ node.kind = .assertion
          ∧ node.text? FieldKey.requirement = some id)
      ↔ ∃ node,
          graph.node? target = some node
          ∧ node.kind = .assertion
          ∧ node.text? FieldKey.requirement = some id := by
  have kept {graph other : Graph} (same : graph.SameRoles other)
      (named
        : ∃ node,
            graph.node? target = some node
            ∧ node.kind = .assertion
            ∧ node.text? FieldKey.requirement = some id)
      : ∃ node,
          other.node? target = some node
          ∧ node.kind = .assertion
          ∧ node.text? FieldKey.requirement = some id := by
    obtain ⟨node, found, kind, names⟩ := named
    obtain ⟨copy, there, role⟩ := same.exists_node found
    exact ⟨copy, there, (congrArg Role.kind role).trans kind,
      (congrArg Role.requirement? role).trans names⟩
  exact ⟨kept same.symm, kept same⟩

/-- The requirements are the same in the same order. Witness: identifiers increase in both lists,
which have the same members. -/
theorem requirementIds_eq (same : graph.SameRoles other)
    : other.requirements.map Node.id = graph.requirements.map Node.id := by
  have ordered (any : Graph) : (any.requirements.map Node.id).Pairwise (· < ·) :=
    List.pairwise_map.mpr (any.nodesOfKind_ordered .requirement)
  have unique (any : Graph) : (any.requirements.map Node.id).Nodup :=
    (ordered any).imp (fun before => before.ne)
  refine List.Perm.eq_of_pairwise ?_ (ordered other) (ordered graph) ?_
  · intro a b _ _ before after
    exact absurd (before.trans after) (lt_irrefl _)
  · rw [List.perm_ext_iff_of_nodup (unique other) (unique graph)]
    intro id
    rw [mem_requirementIds_iff, mem_requirementIds_iff, same.isRequirement_iff]

end SameRoles

namespace SameEntries

variable {graph other : Graph}

theorem contains_iff (same : graph.SameEntries other) {id : String}
    : other.contains id = true ↔ graph.contains id = true := by
  rw [contains_iff_bare?, contains_iff_bare?, same]

/-- What is read off a node is the same, if the positions of edges have no say in it. -/
theorem map_node?_eq (same : graph.SameEntries other) {β : Type} {read : Node → β}
    (bare : ∀ node, read node.bare = read node) (id : String)
    : (other.node? id).map read = (graph.node? id).map read := by
  have kept (any : Graph) : (any.node? id).map read = (any.bare? id).map read := by
    rw [bare?, Option.map_map]
    exact Option.map_congr (fun node _ => (bare node).symm)
  rw [kept, kept, same]

theorem roles (same : graph.SameEntries other) : graph.SameRoles other :=
  same.map_node?_eq (fun _ => rfl)

theorem isRequirement_iff (same : graph.SameEntries other) {id : String}
    : other.isRequirement id = true ↔ graph.isRequirement id = true :=
  same.roles.isRequirement_iff

theorem names_iff (same : graph.SameEntries other) {target id : String}
    : (∃ node,
          other.node? target = some node
          ∧ node.kind = .assertion
          ∧ node.text? FieldKey.requirement = some id)
      ↔ ∃ node,
          graph.node? target = some node
          ∧ node.kind = .assertion
          ∧ node.text? FieldKey.requirement = some id :=
  same.roles.names_iff

theorem requirementIds_eq (same : graph.SameEntries other)
    : other.requirements.map Node.id = graph.requirements.map Node.id :=
  same.roles.requirementIds_eq

theorem bare_owner?_eq (same : graph.SameEntries other) (target : String)
    : (other.owner? target).map Node.bare = (graph.owner? target).map Node.bare := by
  have kept : other.bare? = graph.bare? := funext same
  rw [bare_owner?, bare_owner?, kept]

/-- The nodes of a kind are the same in the same order. Witness: identifiers increase in both
lists, which have the same members. -/
theorem entriesOfKind_eq (same : graph.SameEntries other) (kind : NodeKind)
    : other.entriesOfKind kind = graph.entriesOfKind kind := by
  have unique (any : Graph) : (any.entriesOfKind kind).Nodup := by
    refine (any.entriesOfKind_ordered kind).imp ?_
    intro a b before equal
    exact before.ne (congrArg Node.id equal)
  refine List.Perm.eq_of_pairwise ?_ (other.entriesOfKind_ordered kind)
    (graph.entriesOfKind_ordered kind) ?_
  · intro a b _ _ before after
    exact absurd (before.trans after) (lt_irrefl _)
  · rw [List.perm_ext_iff_of_nodup (unique other) (unique graph)]
    intro entry
    rw [mem_entriesOfKind_iff, mem_entriesOfKind_iff, same]

/-- Every node has a copy with the same entry. -/
theorem exists_copy (same : graph.SameEntries other) {kind : NodeKind} {node : Node}
    (member : node ∈ graph.nodesOfKind kind)
    : ∃ copy ∈ other.nodesOfKind kind, copy.bare = node.bare := by
  have listed : node.bare ∈ other.entriesOfKind kind := by
    rw [same.entriesOfKind_eq]
    exact List.mem_map_of_mem member
  exact List.mem_map.mp listed

/-- What is read off the nodes of a kind is the same if it is the same for every entry. -/
theorem flatMap_nodesOfKind_eq (same : graph.SameEntries other) (kind : NodeKind) {β : Type}
    {read readOther : Node → List β} (bare : ∀ node, read node.bare = read node)
    (bareOther : ∀ node, readOther node.bare = readOther node)
    (agree : ∀ entry ∈ graph.entriesOfKind kind, readOther entry = read entry)
    : (other.nodesOfKind kind).flatMap readOther = (graph.nodesOfKind kind).flatMap read := by
  rw [flatMap_nodesOfKind _ _ bare, flatMap_nodesOfKind _ _ bareOther, same.entriesOfKind_eq]
  exact List.flatMap_congr agree

end SameEntries

end Graph

end Traceability
