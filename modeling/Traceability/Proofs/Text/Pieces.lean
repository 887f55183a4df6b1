import Traceability.Text.Lines

/-! How many lines a text has.
Every line feed ends a line, and what stands after the last one is a further line unless it is
empty.
-/

namespace Traceability.Text

/-- Whether something stands after the last line feed of a text. -/
def endsInsideLine (s : List Char) : Bool :=
  match s.getLast? with
  | none => false
  | some c => c != '\n'

/-- Only the empty text has no pieces, since a character always goes to some piece. -/
theorem pieces_eq_nil_iff (s : List Char)
    : pieces s = [] ↔ s = [] := by
  refine ⟨fun h => ?_, fun h => by subst h; rfl⟩
  rw [← flatten_pieces s, h]
  rfl

theorem length_pushPiece (c : Char) (ps : List (List Char))
    : (pushPiece c ps).length = if c = '\n' ∨ ps = [] then ps.length + 1 else ps.length := by
  unfold pushPiece
  by_cases h : c = '\n'
  · simp [h]
  · cases ps <;> simp [h]

/-- A text has a piece for each line feed, and one more if it ends inside a line. Witness:
induction from the end of the text, where a character opens a piece exactly if it is a line
feed or the last character. -/
theorem length_pieces (s : List Char)
    : (pieces s).length = s.count '\n' + (endsInsideLine s).toNat := by
  induction s with
  | nil => rfl
  | cons c s ih =>
      have step : pieces (c :: s) = pushPiece c (pieces s) := rfl
      simp only [step, length_pushPiece, pieces_eq_nil_iff, ih]
      cases s with
      | nil =>
          by_cases h : c = '\n'
          · simp [endsInsideLine, h]
          · have other : (c != '\n') = true := by simpa using h
            simp [endsInsideLine, h, other]
      | cons d t =>
          have ends : endsInsideLine (c :: d :: t) = endsInsideLine (d :: t) := by
            simp [endsInsideLine, List.getLast?_cons_cons]
          have feeds
              : (c :: d :: t).count '\n' = (d :: t).count '\n' + if c = '\n' then 1 else 0 := by
            rw [List.count_cons]
            simp only [beq_iff_eq]
          rw [ends, feeds]
          by_cases h : c = '\n'
          · simp only [h, true_or, if_true]
            omega
          · simp [h]

theorem length_lines (s : List Char)
    : (lines s).length = s.count '\n' + (endsInsideLine s).toNat := by
  rw [lines, List.length_map, length_pieces]

end Traceability.Text
