import Mathlib.Data.List.ModifyLast
import Traceability.Claim.Requirement
import Traceability.Proofs.Line.Item

/-! The letters and texts of assertions.
They are read off the rows of a body, and blanks at the ends of rows have no say in them. Rows
under a body that are no assertions themselves can only continue its last assertion.
-/

namespace Traceability

open Text

-----------------------------------------------------------------------------------------
-- Readings
-----------------------------------------------------------------------------------------

/-- What a reader sees of an assertion: its letter and its text. -/
def Assertion.reading (assertion : Assertion) : Char × List Char :=
  (assertion.letter, assertion.text.toList)

namespace Claim.Requirement

/-- Whether a row may continue the assertion before it. -/
def continuesRow (row : List Char) : Bool :=
  Item.continues (String.ofList row)

/-- The letters and texts of the assertions that stand on rows. -/
def readings : List (List Char) → List (Char × List Char)
  | [] => []
  | row :: rest =>
      match Item.assertion? (String.ofList row) with
      | none => readings rest
      | some (letter, text) =>
          (letter, join [' '] (text.toList :: (rest.takeWhile continuesRow).map trim))
            :: readings rest

/-- The readings with further parts behind the last text. -/
def extendLast (parts : List (List Char)) (readings : List (Char × List Char))
    : List (Char × List Char) :=
  readings.modifyLast (fun (letter, text) => (letter, join [' '] (text :: parts)))

theorem reading_assertions (lines : List Line)
    : (assertions lines).map Assertion.reading
      = readings (lines.map (fun line => line.text.toList)) := by
  have rows : continuesRow ∘ (fun line : Line => line.text.toList)
      = fun line => Item.continues line.text := by
    funext line
    rw [Function.comp_apply, continuesRow, String.ofList_toList]
  induction lines with
  | nil => rfl
  | cons line rest ih =>
      rw [List.map_cons, assertions, readings, String.ofList_toList]
      cases Item.assertion? line.text with
      | none => exact ih
      | some item =>
          obtain ⟨letter, text⟩ := item
          dsimp only
          rw [List.map_cons, ih, Assertion.reading, String.toList_ofList, List.takeWhile_map, rows,
            List.map_map]
          rfl

/-- Blanks at the ends of rows have no say. -/
theorem readings_trimEnd (rows : List (List Char))
    : readings (rows.map trimEnd) = readings rows := by
  have continued : continuesRow ∘ trimEnd = continuesRow := by
    funext row
    obtain ⟨blanks, blank, split⟩ := exists_blanks_trimEnd row
    rw [Function.comp_apply, continuesRow, continuesRow]
    conv_rhs => rw [split]
    exact (Item.continues_append_blanks blank _).symm
  have trimmed : trim ∘ trimEnd = trim := by
    funext row
    obtain ⟨blanks, blank, split⟩ := exists_blanks_trimEnd row
    rw [Function.comp_apply]
    conv_rhs => rw [split]
    exact (trim_append_blanks blank _).symm
  have opened (row : List Char)
      : Item.assertion? (String.ofList (trimEnd row)) = Item.assertion? (String.ofList row) := by
    obtain ⟨blanks, blank, split⟩ := exists_blanks_trimEnd row
    conv_rhs => rw [split]
    exact (Item.assertion?_append_blanks blank _).symm
  induction rows with
  | nil => rfl
  | cons row rest ih =>
      rw [List.map_cons, readings, readings, opened, ih, List.takeWhile_map, continued,
        List.map_map, trimmed]

-----------------------------------------------------------------------------------------
-- Rows that open no assertion
-----------------------------------------------------------------------------------------

/-- No assertion starts on any of these rows. -/
def Plain (rows : List (List Char)) : Prop :=
  ∀ row ∈ rows, Item.assertion? (String.ofList row) = none

variable {front rows tail : List (List Char)}

theorem readings_of_plain (plain : Plain rows) : readings rows = [] := by
  induction rows with
  | nil => rfl
  | cons row rest ih =>
      rw [readings, plain row List.mem_cons_self]
      exact ih (fun other member => plain other (List.mem_cons_of_mem row member))

/-- Above the first assertion nothing is read. -/
theorem readings_append_of_plain (plain : Plain front) (rows : List (List Char))
    : readings (front ++ rows) = readings rows := by
  induction front with
  | nil => rfl
  | cons row rest ih =>
      rw [List.cons_append, readings, plain row List.mem_cons_self]
      exact ih (fun other member => plain other (List.mem_cons_of_mem row member))

@[simp]
theorem extendLast_nil_right (parts : List (List Char)) : extendLast parts [] = [] :=
  rfl

@[simp]
theorem extendLast_nil (readings : List (Char × List Char))
    : extendLast [] readings = readings := by
  rcases List.eq_nil_or_concat readings with rfl | ⟨init, last, rfl⟩
  · rfl
  · rw [List.concat_eq_append]
    exact List.modifyLast_concat _ _ _

/-- What stands behind the last text leaves the letters alone. -/
theorem map_fst_extendLast (parts : List (List Char)) (readings : List (Char × List Char))
    : (extendLast parts readings).map Prod.fst = readings.map Prod.fst := by
  rcases List.eq_nil_or_concat readings with rfl | ⟨init, last, rfl⟩
  · rfl
  · rw [List.concat_eq_append, extendLast, List.modifyLast_concat, List.map_append,
      List.map_append]
    rfl

theorem extendLast_cons (parts : List (List Char)) (first : Char × List Char)
    {readings : List (Char × List Char)} (nonempty : readings ≠ [])
    : extendLast parts (first :: readings) = first :: extendLast parts readings :=
  List.modifyLast_append_of_right_ne_nil _ [first] readings nonempty

/-- Rows under a body only continue its last assertion, and only if the body does so to its end. -/
theorem exists_readings_append (plain : Plain tail) (rows : List (List Char))
    : ∃ parts,
        parts <+: (tail.filter continuesRow).map trim
        ∧ readings (rows ++ tail) = extendLast parts (readings rows) := by
  induction rows with
  | nil =>
      refine ⟨[], List.nil_prefix, ?_⟩
      rw [List.nil_append, readings_of_plain plain]
      rfl
  | cons row rest ih =>
      obtain ⟨parts, among, later⟩ := ih
      rw [List.cons_append, readings, readings]
      cases opened : Item.assertion? (String.ofList row) with
      | none => exact ⟨parts, among, later⟩
      | some item =>
          obtain ⟨letter, text⟩ := item
          dsimp only
          by_cases all : ∀ other ∈ rest, continuesRow other = true
          · -- The assertion goes on to the end of the body, so it is the last one.
            have none : Plain rest :=
              fun other member => Item.assertion?_of_continues (all other member)
            have continued : tail.takeWhile continuesRow <+: tail.filter continuesRow := by
              have taken := (List.takeWhile_prefix continuesRow (l := tail)).filter continuesRow
              rwa [List.filter_eq_self.mpr (fun _ => List.mem_takeWhile_imp)] at taken
            refine ⟨(tail.takeWhile continuesRow).map trim, continued.map trim, ?_⟩
            rw [later, readings_of_plain none, extendLast_nil_right,
              List.takeWhile_append_of_pos all, List.takeWhile_eq_self_iff.mpr all, List.map_append,
              ← List.cons_append, ← join_join_cons _ (List.cons_ne_nil _ _)]
            rfl
          · have stops : (rest ++ tail).takeWhile continuesRow = rest.takeWhile continuesRow := by
              rw [List.takeWhile_append, if_neg]
              intro whole
              have same := (List.takeWhile_prefix continuesRow (l := rest)).eq_of_length whole
              exact all (List.takeWhile_eq_self_iff.mp same)
            rw [stops, later]
            by_cases last : readings rest = []
            · refine ⟨[], List.nil_prefix, ?_⟩
              rw [last]
              rfl
            · exact ⟨parts, among, (extendLast_cons parts _ last).symm⟩

end Claim.Requirement

end Traceability
