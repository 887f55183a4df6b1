import Mathlib
import Traceability.Graph.Basic

/-! Looking up nodes of a graph, and going through them in order.
Every node is kept under its own identifier, so the nodes in order are the nodes that a look-up
finds, and their identifiers strictly increase.
-/

namespace Traceability

/-- The values of a map are those of its entries in the order of the keys. -/
theorem values_eq_map_snd {β : Type} (map : Std.ExtTreeMap String β)
    : map.values = map.toList.map Prod.snd := by
  obtain ⟨inner⟩ := map
  induction inner using Std.ExtDTreeMap.inductionOn with
  | mk tree =>
      show tree.inner.values = (Std.DTreeMap.Internal.Impl.Const.toList tree.inner).map Prod.snd
      simp [Std.DTreeMap.Internal.Impl.values_eq_map_snd,
        Std.DTreeMap.Internal.Impl.Const.toList_eq_toListModel_map]

namespace Graph

theorem id_of_node? {graph : Graph} {id : String} {node : Node}
    (found : graph.node? id = some node)
    : node.id = id :=
  graph.keyed id node found

theorem contains_iff {graph : Graph} {id : String}
    : graph.contains id = true ↔ ∃ node, graph.node? id = some node := by
  rw [contains, Std.ExtTreeMap.contains_eq_isSome_getElem?, Option.isSome_iff_exists]
  rfl

theorem mem_nodeList_iff {graph : Graph} {node : Node}
    : node ∈ graph.nodeList ↔ graph.node? node.id = some node := by
  rw [nodeList, values_eq_map_snd, List.mem_map]
  constructor
  · intro given
    obtain ⟨⟨key, found⟩, member, rfl⟩ := given
    have look := Std.ExtTreeMap.mem_toList_iff_getElem?_eq_some.mp member
    rw [graph.keyed key found look]
    exact look
  · intro look
    exact ⟨(node.id, node), Std.ExtTreeMap.mem_toList_iff_getElem?_eq_some.mpr look, rfl⟩

theorem mem_nodesOfKind_iff {graph : Graph} {kind : NodeKind} {node : Node}
    : node ∈ graph.nodesOfKind kind ↔ graph.node? node.id = some node ∧ node.kind = kind := by
  rw [nodesOfKind, List.mem_filter, mem_nodeList_iff, decide_eq_true_eq]

/-- The nodes stand in the order of their identifiers, none of which repeats. -/
theorem nodeList_ordered (graph : Graph)
    : graph.nodeList.Pairwise (fun a b => a.id < b.id) := by
  rw [nodeList, values_eq_map_snd, List.pairwise_map]
  refine Std.ExtTreeMap.ordered_keys_toList.imp_of_mem ?_
  intro ⟨key, node⟩ ⟨other, next⟩ here there before
  rw [graph.keyed key node (Std.ExtTreeMap.mem_toList_iff_getElem?_eq_some.mp here),
    graph.keyed other next (Std.ExtTreeMap.mem_toList_iff_getElem?_eq_some.mp there)]
  exact compareOfLessAndEq_eq_lt.mp before

theorem nodesOfKind_ordered (graph : Graph) (kind : NodeKind)
    : (graph.nodesOfKind kind).Pairwise (fun a b => a.id < b.id) :=
  graph.nodeList_ordered.filter _

theorem isRequirement_iff {graph : Graph} {id : String}
    : graph.isRequirement id = true
      ↔ ∃ node, graph.node? id = some node ∧ node.kind = .requirement := by
  rw [isRequirement]
  cases look : graph.node? id <;> simp

/-- The identifiers of the requirements. -/
theorem mem_requirementIds_iff {graph : Graph} {id : String}
    : id ∈ graph.requirements.map Node.id ↔ graph.isRequirement id = true := by
  rw [List.mem_map, isRequirement_iff]
  constructor
  · intro given
    obtain ⟨node, member, rfl⟩ := given
    obtain ⟨found, kind⟩ := mem_nodesOfKind_iff.mp member
    exact ⟨node, found, kind⟩
  · intro ⟨node, found, kind⟩
    have same := id_of_node? found
    exact ⟨node, mem_nodesOfKind_iff.mpr ⟨same ▸ found, kind⟩, same⟩

/-- An owner is a node of the graph. -/
theorem node?_of_owner? {graph : Graph} {target : String} {owner : Node}
    (owned : graph.owner? target = some owner)
    : graph.node? owner.id = some owner := by
  unfold owner? at owned
  split at owned
  · exact absurd owned (by simp)
  · next node found =>
      split at owned
      · obtain rfl := Option.some.inj owned
        exact id_of_node? found ▸ found
      · obtain ⟨name, -, parent⟩ := Option.bind_eq_some_iff.mp owned
        exact id_of_node? parent ▸ parent
      · exact absurd owned (by simp)

/-- The owner of a requirement is itself, and that of an assertion is the node it names. -/
theorem owner?_id_iff {graph : Graph} {target id : String}
    (requirement : graph.isRequirement id = true)
    : (∃ owner, graph.owner? target = some owner ∧ owner.id = id)
      ↔ target = id
        ∨ ∃ node,
            graph.node? target = some node
            ∧ node.kind = .assertion
            ∧ node.text? FieldKey.requirement = some id := by
  obtain ⟨own, ownFound, ownKind⟩ := isRequirement_iff.mp requirement
  constructor
  · intro given
    obtain ⟨owner, owned, rfl⟩ := given
    unfold owner? at owned
    split at owned
    · exact absurd owned (by simp)
    · next node found =>
        split at owned
        · obtain rfl := Option.some.inj owned
          exact Or.inl (id_of_node? found).symm
        · next kind =>
            obtain ⟨name, named, parent⟩ := Option.bind_eq_some_iff.mp owned
            rw [id_of_node? parent]
            exact Or.inr ⟨node, found, kind, named⟩
        · exact absurd owned (by simp)
  · intro given
    rcases given with rfl | ⟨node, found, kind, named⟩
    · exact ⟨own, by simp [owner?, ownFound, ownKind], id_of_node? ownFound⟩
    · exact ⟨own, by simp [owner?, found, kind, named, ownFound], id_of_node? ownFound⟩

end Graph

end Traceability
