import Mathlib.Data.List.Nodup

/-! Items of a list that nothing else of it is taken for.
When repeats are erased, what is erased with the first item is gone before the rest is looked at, so
each of those inductions is on the number of items, and not on the items.
-/

namespace Traceability

variable {α : Type}

/-- A search finds the only item that passes its test. -/
theorem find?_eq_some_of_unique {p : α → Bool} {items : List α} {item : α} (member : item ∈ items)
    (passes : p item = true) (unique : ∀ other ∈ items, p other = true → other = item)
    : items.find? p = some item := by
  obtain ⟨first, found⟩ :=
    Option.isSome_iff_exists.mp (List.find?_isSome.mpr ⟨item, member, passes⟩)
  rw [found, unique first (List.mem_of_find?_eq_some found) (List.find?_some found)]

theorem mem_of_mem_eraseDupsBy {same : α → α → Bool} {item : α}
    : ∀ {items : List α}, item ∈ items.eraseDupsBy same → item ∈ items
  | [], member => member
  | first :: rest, member => by
      rw [List.eraseDupsBy_cons] at member
      rcases List.mem_cons.mp member with rfl | later
      · exact List.mem_cons_self
      · exact List.mem_cons_of_mem _ (List.mem_of_mem_filter (mem_of_mem_eraseDupsBy later))
termination_by items => items.length
decreasing_by exact Nat.lt_succ_of_le (List.length_filter_le _ _)

/-- Of the items that are taken for the same one is left. -/
theorem exists_mem_eraseDupsBy (same : α → α → Bool) (refl : ∀ a, same a a = true) {item : α}
    : ∀ {items : List α}, item ∈ items →
        ∃ other ∈ items.eraseDupsBy same, same item other = true
  | [], member => absurd member List.not_mem_nil
  | first :: rest, member => by
      rw [List.eraseDupsBy_cons]
      rcases List.mem_cons.mp member with rfl | later
      · exact ⟨item, List.mem_cons_self, refl item⟩
      · by_cases again : same item first = true
        · exact ⟨first, List.mem_cons_self, again⟩
        · have left : item ∈ rest.filter (fun b => same b first = false) :=
            List.mem_filter.mpr ⟨later, by simpa using again⟩
          obtain ⟨other, kept, taken⟩ := exists_mem_eraseDupsBy same refl left
          exact ⟨other, List.mem_cons_of_mem _ kept, taken⟩
termination_by items => items.length
decreasing_by exact Nat.lt_succ_of_le (List.length_filter_le _ _)

/-- Nothing is left twice. -/
theorem nodup_eraseDups [BEq α] [LawfulBEq α] : ∀ items : List α, items.eraseDups.Nodup
  | [] => List.nodup_nil
  | first :: rest => by
      rw [List.eraseDups_cons, List.nodup_cons, List.mem_eraseDups]
      exact ⟨by simp, nodup_eraseDups _⟩
termination_by items => items.length
decreasing_by exact Nat.lt_succ_of_le (List.length_filter_le _ _)

/-- Leaving out repeats commutes with a map that keeps what counts as a repeat. -/
theorem map_eraseDupsBy {β : Type} {f : α → β} {same : α → α → Bool} {sameOther : β → β → Bool}
    (agree : ∀ a b, sameOther (f a) (f b) = same a b)
    : ∀ items : List α, (items.eraseDupsBy same).map f = (items.map f).eraseDupsBy sameOther
  | [] => rfl
  | first :: rest => by
      rw [List.eraseDupsBy_cons, List.map_cons, List.map_cons, List.eraseDupsBy_cons,
        List.filter_map, map_eraseDupsBy agree]
      simp only [Function.comp_def, agree]
termination_by items => items.length
decreasing_by exact Nat.lt_succ_of_le (List.length_filter_le _ _)

/-- Nothing that tells the items apart is left twice. -/
theorem nodup_map_eraseDupsBy {β : Type} [BEq β] [LawfulBEq β] (f : α → β) (items : List α)
    : ((items.eraseDupsBy (fun a b => f a == f b)).map f).Nodup := by
  have erased : (items.eraseDupsBy (fun a b => f a == f b)).map f = (items.map f).eraseDups :=
    map_eraseDupsBy (fun _ _ => rfl) items
  exact erased ▸ nodup_eraseDups _

/-- Two ways to tell items apart leave as many. -/
theorem length_eraseDups_map_eq {β γ : Type} [BEq β] [LawfulBEq β] [BEq γ] [LawfulBEq γ]
    {f : α → β} {g : α → γ}
    : ∀ {items : List α},
        (∀ a ∈ items, ∀ b ∈ items, f a = f b ↔ g a = g b)
        → (items.map f).eraseDups.length = (items.map g).eraseDups.length
  | [], _ => rfl
  | first :: rest, agree => by
      have rest_eq : rest.filter (fun item => !f item == f first)
          = rest.filter (fun item => !g item == g first) := by
        refine List.filter_congr fun item member => ?_
        rw [Bool.eq_iff_iff]
        simpa using (agree item (List.mem_cons_of_mem _ member) first List.mem_cons_self).not
      have fewer : (rest.filter (fun item => !g item == g first)).length ≤ rest.length :=
        List.length_filter_le _ _
      rw [List.map_cons, List.map_cons, List.eraseDups_cons, List.eraseDups_cons, List.length_cons,
        List.length_cons, List.filter_map, List.filter_map, Function.comp_def, Function.comp_def,
        rest_eq]
      refine congrArg (· + 1) (length_eraseDups_map_eq fun a memA b memB => ?_)
      exact agree a (List.mem_cons_of_mem _ (List.mem_of_mem_filter memA)) b
        (List.mem_cons_of_mem _ (List.mem_of_mem_filter memB))
termination_by items => items.length

end Traceability
