import Mathlib.Data.List.DropRight
import Traceability.Proofs.Text.Rows

/-! Lines of texts whose carriage returns stand anywhere.
A line has no line feed, but may have carriage returns, also at its end. The content of a piece
has no line end behind it, so the two are the same unless the line ends with a carriage return.
-/

namespace Traceability.Text

open Rewrite

-----------------------------------------------------------------------------------------
-- Line feeds
-----------------------------------------------------------------------------------------

/-- A piece is a text without line feeds, and perhaps the one that ends it. Witness: induction
from the end of the text, where a line feed is a piece of its own and any other character
stands before the first piece. -/
theorem exists_plain_of_mem_pieces {s : List Char}
    : ∀ piece ∈ pieces s,
        ∃ content, '\n' ∉ content ∧ (piece = content ∨ piece = content ++ ['\n']) := by
  induction s with
  | nil => exact List.forall_mem_nil _
  | cons c s ih =>
      have step : pieces (c :: s) = pushPiece c (pieces s) := rfl
      intro piece member
      rw [step, pushPiece.eq_def] at member
      split at member
      · next feed =>
          rcases List.mem_cons.mp member with rfl | later
          · exact ⟨[], List.not_mem_nil, Or.inr (by rw [feed]; rfl)⟩
          · exact ih piece later
      · next other =>
          split at member
          · next none =>
              obtain rfl := List.mem_singleton.mp member
              exact ⟨[c], by simpa using Ne.symm other, Or.inl rfl⟩
          · next first rest split =>
              rcases List.mem_cons.mp member with rfl | later
              · obtain ⟨content, plain, shape⟩ := ih first (by rw [split]; exact List.mem_cons_self)
                refine ⟨c :: content, by simpa [Ne.symm other] using plain, ?_⟩
                exact shape.imp (congrArg (c :: ·)) (congrArg (c :: ·))
              · exact ih piece (by rw [split]; exact List.mem_cons_of_mem _ later)

theorem dropTerminator_append_feed_isPrefix (content : List Char)
    : dropTerminator (content ++ ['\n']) <+: content := by
  have reversed : (content ++ ['\n']).reverse = '\n' :: content.reverse := by simp
  rw [← List.reverse_suffix, dropTerminator, reversed]
  split
  · next rest same =>
      rw [(List.cons.inj same).2, List.reverse_reverse]
      exact List.suffix_cons _ _
  · next rest _ same =>
      rw [(List.cons.inj same).2, List.reverse_reverse]
  · next other => exact absurd rfl (other _)

/-- A line has no line feed. -/
theorem feed_not_mem_of_mem_lines {s line : List Char} (member : line ∈ lines s)
    : '\n' ∉ line := by
  obtain ⟨piece, own, rfl⟩ := List.mem_map.mp member
  obtain ⟨content, plain, rfl | rfl⟩ := exists_plain_of_mem_pieces piece own
  · rw [dropTerminator_of_plain plain]
    exact plain
  · exact fun feed => plain ((dropTerminator_append_feed_isPrefix content).mem feed)

-----------------------------------------------------------------------------------------
-- Line ends behind a line
-----------------------------------------------------------------------------------------

/-- What a line lacks of its piece is no content. -/
theorem contentOf_dropTerminator (piece : List Char)
    : contentOf (dropTerminator piece) = contentOf piece := by
  rw [dropTerminator]
  split
  · next rest same => simp [contentOf, dropEndWhile, same, isLineEnd]
  · next rest _ same => simp [contentOf, dropEndWhile, same, isLineEnd]
  · rfl

theorem contentOf_contentOf (piece : List Char)
    : contentOf (contentOf piece) = contentOf piece :=
  List.rdropWhile_idempotent isLineEnd piece

/-- A text is all content unless a line end is its last character. -/
theorem contentOf_eq_self_iff {s : List Char}
    : contentOf s = s ↔ ∀ c ∈ s.getLast?, isLineEnd c = false := by
  rw [contentOf, show dropEndWhile isLineEnd s = s.rdropWhile isLineEnd from rfl,
    List.rdropWhile_eq_self_iff]
  constructor
  · intro ends c last
    obtain ⟨nonempty, rfl⟩ := List.mem_getLast?_eq_getLast last
    simpa using ends nonempty
  · intro ends nonempty
    simpa using ends _ (List.getLast?_eq_some_getLast nonempty)

end Traceability.Text
