import Mathlib.Data.List.Nodup

/-! What sorting by a comparison leaves.
Items come out in order, and strictly so if none is repeated and the comparison tells any two apart.
Which order they came in is forgotten then.
-/

namespace Traceability

section Sorting

variable {α : Type} {cmp : α → α → Ordering}

theorem isLE_or_isLE_swap [Std.OrientedCmp cmp] (a b : α)
    : ((cmp a b).isLE || (cmp b a).isLE) = true := by
  have swapped : cmp b a = (cmp a b).swap := Std.OrientedCmp.eq_swap
  rw [swapped]
  cases cmp a b <;> rfl

variable [Std.TransCmp cmp]

theorem pairwise_mergeSort_isLE (items : List α)
    : (items.mergeSort (fun a b => (cmp a b).isLE)).Pairwise (fun a b => (cmp a b).isLE) :=
  List.pairwise_mergeSort (fun _ _ _ => Std.TransCmp.isLE_trans) isLE_or_isLE_swap items

variable [Std.LawfulEqCmp cmp]

/-- Distinct items come out in strict order. -/
theorem pairwise_mergeSort_lt {items : List α} (distinct : items.Nodup)
    : (items.mergeSort (fun a b => (cmp a b).isLE)).Pairwise (fun a b => cmp a b = .lt) := by
  have apart := (List.mergeSort_perm items (fun a b => (cmp a b).isLE)).nodup_iff.mpr distinct
  refine ((pairwise_mergeSort_isLE items).and apart).imp ?_
  intro a b ⟨before, differ⟩
  cases order : cmp a b with
  | lt => rfl
  | eq => exact absurd (Std.LawfulEqCmp.eq_of_compare order) differ
  | gt => simp [order] at before

/-- Sorting forgets the order of items that the order tells apart. -/
theorem mergeSort_eq_of_perm {items other : List α} (perm : other.Perm items)
    : other.mergeSort (fun a b => (cmp a b).isLE)
      = items.mergeSort (fun a b => (cmp a b).isLE) := by
  refine List.Perm.eq_of_pairwise ?_ (pairwise_mergeSort_isLE other)
    (pairwise_mergeSort_isLE items) ?_
  · intro a b _ _ before after
    exact Std.LawfulEqCmp.eq_of_compare (Std.OrientedCmp.isLE_antisymm before after)
  · exact (List.mergeSort_perm other _).trans (perm.trans (List.mergeSort_perm items _).symm)

end Sorting

/-- Lists come in the order of their first difference. -/
theorem lt_of_compare_eq_lt {a b : List String} (before : compare a b = .lt) : a < b := by
  induction a generalizing b with
  | nil =>
      cases b with
      | nil => cases before
      | cons second rest => exact List.nil_lt_cons second rest
  | cons first more ih =>
      cases b with
      | nil => cases before
      | cons second rest =>
          rw [List.compare_cons_cons, Ordering.then_eq_lt] at before
          rw [List.cons_lt_cons_iff]
          rcases before with less | ⟨same, later⟩
          · exact Or.inl (compareOfLessAndEq_eq_lt.mp less)
          · exact Or.inr ⟨Std.LawfulEqCmp.eq_of_compare same, ih later⟩

end Traceability
