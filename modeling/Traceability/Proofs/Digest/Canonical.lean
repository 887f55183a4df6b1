import Mathlib.Data.List.DropRight
import Traceability.Digest.Canonical
import Traceability.Proofs.Text.Rows

/-! The canonical form of lines.
The canonical form of lines that are joined follows from the lines without the blanks at their
ends. It consists of such lines, of which neither the first is empty nor the last a rule, so it is
its own canonical form.
-/

namespace Traceability.Canonical

open Text

-----------------------------------------------------------------------------------------
-- Lines that were joined
-----------------------------------------------------------------------------------------

/-- Whether a line does not count at the end of a body. -/
def isDecoration (line : List Char) : Bool :=
  line.isEmpty || isRule line

/-- The lines from the first that is not empty to the last that counts. -/
def core (rows : List (List Char)) : List (List Char) :=
  (rows.rdropWhile isDecoration).dropWhile List.isEmpty

theorem lines_eq_core (body : List Char)
    : lines body = core ((Text.lines (unifyLineEnds body)).map trimEnd) :=
  rfl

theorem unifyLineEnds_of_not_mem {s : List Char} (plain : '\r' ∉ s) : unifyLineEnds s = s := by
  induction s using unifyLineEnds.induct with
  | case1 => rfl
  | case2 rest ih => exact absurd List.mem_cons_self plain
  | case3 rest _ ih => exact absurd List.mem_cons_self plain
  | case4 c rest _ _ ih =>
      rw [unifyLineEnds, ih (fun member => plain (List.mem_cons_of_mem c member))]
      all_goals assumption

theorem unifyLineEnds_append {content : List Char} (inline : Inline content) (rest : List Char)
    : unifyLineEnds (content ++ rest) = content ++ unifyLineEnds rest := by
  induction content with
  | nil => rfl
  | cons c content ih =>
      have noReturn : c ≠ '\r' := by
        rintro rfl
        exact Bool.noConfusion (inline '\r' List.mem_cons_self)
      have later := ih (fun d member => inline d (List.mem_cons_of_mem c member))
      rw [List.cons_append, unifyLineEnds, later]
      · rfl
      all_goals
        intros
        contradiction

/-- Lines that are joined are cut again where they were joined, but an empty last line is none. -/
theorem lines_join {rows : List (List Char)} (inline : ∀ row ∈ rows, Inline row)
    : Text.lines (join ['\n'] rows) = rows
      ∨ ∃ init, rows = init ++ [[]] ∧ Text.lines (join ['\n'] rows) = init := by
  induction rows with
  | nil => exact Or.inl rfl
  | cons row rest ih =>
      have own := inline row List.mem_cons_self
      have later := ih (fun other member => inline other (List.mem_cons_of_mem row member))
      cases rest with
      | nil =>
          by_cases empty : row = []
          · exact Or.inr ⟨[], by rw [empty]; rfl, by rw [empty]; rfl⟩
          · left
            rw [join, Text.lines, pieces_of_plain own.feed_not_mem empty, List.map_singleton,
              dropTerminator_of_inline own]
      | cons next more =>
          have cut
              : Text.lines (join ['\n'] (row :: next :: more))
                = row :: Text.lines (join ['\n'] (next :: more)) := by
            rw [join, List.append_assoc, List.singleton_append, Text.lines,
              pieces_append_feed own.feed_not_mem, List.map_cons,
              dropTerminator_append own (Or.inl rfl), Text.lines]
          rw [cut]
          rcases later with whole | ⟨init, ends, whole⟩
          · exact Or.inl (by rw [whole])
          · exact Or.inr ⟨row :: init, by rw [ends]; rfl, by rw [whole]⟩

theorem core_append_empty (rows : List (List Char)) : core (rows ++ [[]]) = core rows := by
  rw [core, List.rdropWhile_concat_pos _ _ _ rfl, core]

/-- The lines of a body that was joined, whatever the line ends were. -/
theorem lines_of_unified {body : List Char} {rows : List (List Char)}
    (inline : ∀ row ∈ rows, Inline row) (unified : unifyLineEnds body = join ['\n'] rows)
    : lines body = core (rows.map trimEnd) := by
  rw [lines_eq_core, unified]
  rcases lines_join inline with whole | ⟨init, ends, whole⟩
  · rw [whole]
  · rw [whole, ends, List.map_append, List.map_singleton]
    exact (core_append_empty _).symm

theorem lines_join_eq_core {rows : List (List Char)} (inline : ∀ row ∈ rows, Inline row)
    : lines (join ['\n'] rows) = core (rows.map trimEnd) := by
  have noReturn : '\r' ∉ join ['\n'] rows :=
    not_mem_join (by decide) (fun row member return' =>
      Bool.noConfusion (inline row member '\r' return'))
  exact lines_of_unified inline (unifyLineEnds_of_not_mem noReturn)

-----------------------------------------------------------------------------------------
-- Normal lines
-----------------------------------------------------------------------------------------

/-- Lines as a canonical form has them. -/
structure Normal (rows : List (List Char)) : Prop where
  inline : ∀ row ∈ rows, Inline row
  trimmed : ∀ row ∈ rows, trimEnd row = row
  first : ∀ row ∈ rows.head?, row ≠ []
  last : ∀ row ∈ rows.getLast?, isDecoration row = false

theorem core_of_normal {rows : List (List Char)} (normal : Normal rows) : core rows = rows := by
  have ends : rows.rdropWhile isDecoration = rows := by
    rw [List.rdropWhile_eq_self_iff]
    intro nonempty
    rw [normal.last _ (List.getLast?_eq_some_getLast nonempty)]
    exact Bool.false_ne_true
  rw [core, ends]
  cases rows with
  | nil => rfl
  | cons row rest =>
      rw [List.dropWhile_cons_of_neg]
      simpa using normal.first row rfl

theorem trimEnd_trimEnd (s : List Char) : trimEnd (trimEnd s) = trimEnd s :=
  List.rdropWhile_idempotent isBlank s

theorem normal_core {rows : List (List Char)} (inline : ∀ row ∈ rows, Inline row)
    (trimmed : ∀ row ∈ rows, trimEnd row = row)
    : Normal (core rows) := by
  have inside {row : List Char} (member : row ∈ core rows) : row ∈ rows :=
    (List.rdropWhile_prefix _ _).mem ((List.dropWhile_suffix _).mem member)
  constructor
  · exact fun row member => inline row (inside member)
  · exact fun row member => trimmed row (inside member)
  · intro row head
    have stopped := List.head?_dropWhile_not List.isEmpty (rows.rdropWhile isDecoration)
    rw [core] at head
    rw [head] at stopped
    simpa using stopped
  · intro row last
    obtain ⟨front, split⟩ := List.dropWhile_suffix (l := rows.rdropWhile isDecoration) List.isEmpty
    have ends : (rows.rdropWhile isDecoration).getLast? = some row := by
      rw [← split, List.getLast?_append]
      exact Option.or_eq_some_iff.mpr (Or.inl last)
    have nonempty : rows.rdropWhile isDecoration ≠ [] := by
      intro none
      rw [none] at ends
      exact absurd ends (by simp)
    have kept := List.rdropWhile_last_not isDecoration rows nonempty
    rw [(List.getLast_eq_iff_getLast?_eq_some nonempty).mpr ends, Bool.not_eq_true] at kept
    exact kept

theorem not_mem_unifyLineEnds (s : List Char) : '\r' ∉ unifyLineEnds s := by
  induction s using unifyLineEnds.induct with
  | case1 => exact List.not_mem_nil
  | case2 rest ih => simpa [unifyLineEnds] using ih
  | case3 rest _ ih =>
      rw [unifyLineEnds]
      · simpa using ih
      · assumption
  | case4 c rest _ other ih =>
      rw [unifyLineEnds]
      · simp only [List.mem_cons, ih, or_false]
        exact fun same => other same.symm
      · assumption
      · assumption

theorem normal_lines (body : List Char) : Normal (lines body) := by
  have feeds : FeedsAfterReturns (unifyLineEnds body) := by
    intro before after split
    exact absurd (split ▸ by simp) (not_mem_unifyLineEnds body)
  rw [lines_eq_core]
  refine normal_core ?_ ?_
  · intro row member
    obtain ⟨line, own, rfl⟩ := List.mem_map.mp member
    intro c inside
    exact inline_of_mem_lines feeds line own c ((List.rdropWhile_prefix isBlank line).mem inside)
  · intro row member
    obtain ⟨line, own, rfl⟩ := List.mem_map.mp member
    exact trimEnd_trimEnd line

/-- The lines of a canonical form are cut where they were joined. -/
theorem lines_form (body : List Char) : Text.lines (form body) = lines body := by
  have normal := normal_lines body
  rcases lines_join normal.inline with whole | ⟨init, ends, -⟩
  · exact whole
  · have decorated := normal.last [] (by rw [ends]; simp)
    exact absurd decorated (by decide)

/-- The canonical form of a body is its own canonical form. -/
theorem form_form (body : List Char) : form (form body) = form body := by
  have normal := normal_lines body
  have trimmed : (lines body).map trimEnd = lines body :=
    (List.map_congr_left normal.trimmed).trans (List.map_id _)
  rw [form, form, lines_join_eq_core normal.inline, trimmed, core_of_normal normal]

end Traceability.Canonical
