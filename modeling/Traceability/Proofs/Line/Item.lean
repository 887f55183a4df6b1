import Traceability.Line.Item
import Traceability.Proofs.Text.Search

/-! Blanks after items.
What a line says as an item, or as the continuation of one, does not depend on blanks at its end.
-/

namespace Traceability

open Text

namespace Item

variable {blanks : List Char}

/-- A label with nothing but blanks behind it is no item. -/
theorem text?_append_blanks (blank : Blanks blanks) (s : List Char)
    : text? (s ++ blanks) = text? s := by
  have line {s : List Char} : Heading.singleLine? (s ++ blanks) = Heading.singleLine? s := by
    rw [Heading.singleLine?, Heading.singleLine?, trim_append_blanks blank]
  match s with
  | [] =>
      cases blanks with
      | nil => rfl
      | cons mark rest =>
          have noMark : (mark == '.' || mark == ')') = false := by
            have isMark := blank mark List.mem_cons_self
            by_contra other
            rw [Bool.not_eq_false, Bool.or_eq_true, beq_iff_eq, beq_iff_eq] at other
            rcases other with rfl | rfl <;> exact absurd isMark (by decide)
          cases rest <;> simp [text?, noMark]
  | [mark] =>
      cases blanks with
      | nil => rfl
      | cons c rest =>
          have empty : Heading.singleLine? rest = some [] := by
            have all : Blanks rest := fun c member => blank c (List.mem_cons_of_mem _ member)
            have nothing := trim_append_blanks all []
            rw [List.nil_append] at nothing
            rw [Heading.singleLine?, nothing]
            rfl
          rw [List.singleton_append, text?, empty, text?]
          · split <;> rfl
          · simp
  | mark :: c :: rest => rw [List.cons_append, List.cons_append, text?, text?, line]

theorem assertion?_append_blanks (blank : Blanks blanks) (s : List Char)
    : assertion? (String.ofList (s ++ blanks)) = assertion? (String.ofList s) := by
  rw [assertion?, assertion?, String.toList_ofList, String.toList_ofList,
    trimStart_append_blanks blank]
  cases trimStart s with
  | nil => rfl
  | cons letter rest =>
      simp only [reduceCtorEq, if_false, List.cons_append, text?_append_blanks blank]

theorem continues_append_blanks (blank : Blanks blanks) (s : List Char)
    : continues (String.ofList (s ++ blanks)) = continues (String.ofList s) := by
  rw [continues, continues, assertion?_append_blanks blank, String.toList_ofList,
    String.toList_ofList]
  cases s with
  | nil =>
      cases blanks with
      | nil => rfl
      | cons c rest =>
          have later : rest.all isBlank = true :=
            List.all_eq_true.mpr (fun d member => blank d (List.mem_cons_of_mem c member))
          simp [later]
  | cons c rest => simp only [List.cons_append, all_append_blanks blank]

/-- A line that continues an assertion is none. -/
theorem assertion?_of_continues {text : String} (further : continues text = true)
    : assertion? text = none := by
  rw [continues] at further
  split at further
  · exact absurd further Bool.false_ne_true
  · rw [Bool.and_eq_true, Option.isNone_iff_eq_none] at further
    exact further.2

end Item

end Traceability
