import Traceability.Proofs.Graph.Records

/-! How many nodes repeat an identifier.
Every node that is offered to a graph under an identifier that is taken becomes a duplicate. So
there are as many duplicates as nodes were offered beyond the first of each identifier.
-/

namespace Traceability

-----------------------------------------------------------------------------------------
-- Lists with repeated items
-----------------------------------------------------------------------------------------

/-- How many items of a list repeat an earlier one: all but the distinct ones. -/
def repeatCount {α : Type} [DecidableEq α] (items : List α) : Nat :=
  items.length - items.dedup.length

section Lists

variable {α β : Type} [DecidableEq α] [DecidableEq β]

theorem repeatCount_add_card (items : List α)
    : repeatCount items + items.toFinset.card = items.length := by
  have fewer := items.dedup_sublist.length_le
  rw [repeatCount, List.card_toFinset]
  omega

theorem repeatCount_eq_zero {items : List α} (distinct : items.Nodup) : repeatCount items = 0 := by
  rw [repeatCount, distinct.dedup, Nat.sub_self]

theorem repeatCount_of_perm {items other : List α} (same : items.Perm other)
    : repeatCount items = repeatCount other := by
  rw [repeatCount, repeatCount, same.length_eq, same.dedup.length_eq]

/-- Lists that share no item repeat none of each other's. -/
theorem repeatCount_append {items more : List α} (apart : items.Disjoint more)
    : repeatCount (items ++ more) = repeatCount items + repeatCount more := by
  have whole := repeatCount_add_card (items ++ more)
  have first := repeatCount_add_card items
  have second := repeatCount_add_card more
  rw [List.toFinset_append, Finset.card_union_of_disjoint (List.disjoint_toFinset_iff_disjoint.mpr
    apart), List.length_append] at whole
  omega

theorem repeatCount_map {f : α → β} (injective : Function.Injective f) (items : List α)
    : repeatCount (items.map f) = repeatCount items := by
  rw [repeatCount, repeatCount, List.dedup_map_of_injective injective, List.length_map,
    List.length_map]

omit [DecidableEq α] in
/-- Repeats can be counted on both sides of a test that equal items pass alike. -/
theorem repeatCount_map_filter {f : α → β} {items : List α} {test : α → Bool}
    (alike : ∀ a ∈ items, ∀ b ∈ items, f a = f b → test a = test b)
    : repeatCount (items.map f)
      = repeatCount ((items.filter test).map f)
        + repeatCount ((items.filter (fun item => !test item)).map f) := by
  have sorted := (List.filter_append_perm test items).map f
  rw [← repeatCount_of_perm sorted, List.map_append, repeatCount_append]
  intro value first second
  obtain ⟨a, memberA, rfl⟩ := List.mem_map.mp first
  obtain ⟨b, memberB, same⟩ := List.mem_map.mp second
  obtain ⟨inA, passes⟩ := List.mem_filter.mp memberA
  obtain ⟨inB, fails⟩ := List.mem_filter.mp memberB
  rw [alike b inB a inA same, passes] at fails
  exact absurd fails Bool.false_ne_true

end Lists

-----------------------------------------------------------------------------------------
-- Repeated identifiers
-----------------------------------------------------------------------------------------

/-- Each repeat has the node that it repeats before it. -/
theorem exists_pair_of_mem_repeatsAfter {earlier nodes : List Node} {entry : Duplicate}
    (member : entry ∈ repeatsAfter earlier nodes)
    : ∃ first second : Node,
        [first, second].Sublist (earlier ++ nodes)
        ∧ first.id = second.id
        ∧ entry = ⟨second.id, first.source, second.source⟩ := by
  induction nodes generalizing earlier with
  | nil => exact absurd member List.not_mem_nil
  | cons node rest ih =>
      rw [repeatsAfter, List.mem_append, Option.mem_toList] at member
      rcases member with here | later
      · obtain ⟨first, found, rfl⟩ := Option.map_eq_some_iff.mp here
        have same : first.id = node.id := by simpa using List.find?_some found
        have before : [first].Sublist earlier :=
          List.singleton_sublist.mpr (List.mem_of_find?_eq_some found)
        have here : [node].Sublist (node :: rest) := List.singleton_sublist.mpr List.mem_cons_self
        exact ⟨first, node, before.append here, same, rfl⟩
      · have found := ih later
        rw [List.append_assoc, List.singleton_append] at found
        exact found

/-- A node either repeats an identifier or adds one. -/
theorem card_ids_append_singleton (earlier : List Node) (node : Node)
    : (earlier.find? (fun first => first.id = node.id)).toList.length
        + ((earlier ++ [node]).map Node.id).toFinset.card
      = (earlier.map Node.id).toFinset.card + 1 := by
  have ids
      : ((earlier ++ [node]).map Node.id).toFinset
        = insert node.id (earlier.map Node.id).toFinset := by
    ext id
    simp [eq_comm]
  rw [ids]
  cases found : earlier.find? (fun first => first.id = node.id) with
  | none =>
      have new : node.id ∉ (earlier.map Node.id).toFinset := by
        intro member
        obtain ⟨first, listed, same⟩ := List.mem_map.mp (List.mem_toFinset.mp member)
        exact List.find?_eq_none.mp found first listed (decide_eq_true same)
      rw [Finset.card_insert_of_notMem new, Option.toList_none, List.length_nil, Nat.zero_add]
  | some first =>
      have same : first.id = node.id := by simpa using List.find?_some found
      have old : node.id ∈ (earlier.map Node.id).toFinset := by
        rw [List.mem_toFinset, ← same]
        exact List.mem_map_of_mem (List.mem_of_find?_eq_some found)
      rw [Finset.insert_eq_self.mpr old, Option.toList_some, List.length_singleton, Nat.add_comm]

theorem length_repeatsAfter (earlier nodes : List Node)
    : (repeatsAfter earlier nodes).length + ((earlier ++ nodes).map Node.id).toFinset.card
      = nodes.length + (earlier.map Node.id).toFinset.card := by
  induction nodes generalizing earlier with
  | nil => rw [List.append_nil]; rfl
  | cons node rest ih =>
      have here := card_ids_append_singleton earlier node
      have later := ih (earlier ++ [node])
      rw [List.append_assoc, List.singleton_append] at later
      rw [repeatsAfter, List.length_append, List.length_cons, Option.toList_map, List.length_map]
      omega

theorem length_repeats (nodes : List Node)
    : (repeatsAfter [] nodes).length = repeatCount (nodes.map Node.id) := by
  have repeats := length_repeatsAfter [] nodes
  have counted := repeatCount_add_card (nodes.map Node.id)
  simp only [List.nil_append, List.map_nil, List.toFinset_nil, Finset.card_empty,
    List.length_map] at repeats counted
  omega

end Traceability
