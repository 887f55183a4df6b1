import Traceability.Line.Basic
import Traceability.Proofs.Text.Returns

/-! Texts whose line feeds are put behind carriage returns.
The change commutes with cutting a text into pieces. A line of a text without carriage returns
is the same before and after it, while a piece keeps its content and changes its ending.
-/

namespace Traceability.Text

open Rewrite

/-- A text with a carriage return put before each of its line feeds. -/
def putReturns (s : List Char) : List Char :=
  s.flatMap (fun c => if c = '\n' then ['\r', '\n'] else [c])

/-- A text with a carriage return put before each of its line feeds. -/
def withReturns (text : String) : String :=
  String.ofList (putReturns text.toList)

theorem toList_withReturns (text : String)
    : (withReturns text).toList = putReturns text.toList :=
  String.toList_ofList

-----------------------------------------------------------------------------------------
-- Texts and their pieces
-----------------------------------------------------------------------------------------

@[simp] theorem putReturns_nil : putReturns [] = [] := rfl

theorem putReturns_cons_feed (s : List Char)
    : putReturns ('\n' :: s) = '\r' :: '\n' :: putReturns s :=
  rfl

theorem putReturns_cons {c : Char} (other : c ≠ '\n') (s : List Char)
    : putReturns (c :: s) = c :: putReturns s := by
  simp only [putReturns, List.flatMap_cons, if_neg other, List.singleton_append]

theorem putReturns_append (s t : List Char)
    : putReturns (s ++ t) = putReturns s ++ putReturns t :=
  List.flatMap_append

theorem putReturns_flatten (texts : List (List Char))
    : putReturns texts.flatten = (texts.map putReturns).flatten := by
  induction texts with
  | nil => rfl
  | cons s rest ih => simp only [List.flatten_cons, List.map_cons, putReturns_append, ih]

theorem putReturns_of_plain {s : List Char} (plain : '\n' ∉ s)
    : putReturns s = s := by
  induction s with
  | nil => rfl
  | cons c s ih =>
      obtain ⟨other, later⟩ := not_or.mp (List.mem_cons.not.mp plain)
      simp only [putReturns_cons (Ne.symm other), ih later]

/-- Only carriage returns are put into a text. -/
theorem mem_of_mem_putReturns {s : List Char} {c : Char} (member : c ∈ putReturns s)
    : c ∈ s ∨ c = '\r' ∧ '\n' ∈ s := by
  obtain ⟨d, own, put⟩ := List.mem_flatMap.mp member
  by_cases feed : d = '\n'
  · cases feed
    rcases List.mem_cons.mp put with isReturn | same
    · exact Or.inr ⟨isReturn, own⟩
    · cases List.mem_singleton.mp same
      exact Or.inl own
  · simp only [if_neg feed] at put
    cases List.mem_singleton.mp put
    exact Or.inl own

theorem pushPiece_map_putReturns {c : Char} (other : c ≠ '\n') (ps : List (List Char))
    : pushPiece c (ps.map putReturns) = (pushPiece c ps).map putReturns := by
  simp only [pushPiece, if_neg other]
  cases ps with
  | nil => simp only [List.map_nil, List.map_cons, putReturns_cons other, putReturns_nil]
  | cons piece rest => simp only [List.map_cons, putReturns_cons other]

/-- A text with returns is cut where the text was cut. -/
theorem pieces_putReturns (s : List Char)
    : pieces (putReturns s) = (pieces s).map putReturns := by
  induction s with
  | nil => rfl
  | cons c s ih =>
      have step (d : Char) (t : List Char) : pieces (d :: t) = pushPiece d (pieces t) := rfl
      by_cases feed : c = '\n'
      · cases feed
        simp only [putReturns_cons_feed, step, ih]
        rfl
      · simp only [putReturns_cons feed, step, ih, pushPiece_map_putReturns feed]

-----------------------------------------------------------------------------------------
-- Lines
-----------------------------------------------------------------------------------------

theorem mem_of_mem_piece {s piece : List Char} (own : piece ∈ pieces s) {c : Char}
    (member : c ∈ piece)
    : c ∈ s := by
  have inside : c ∈ (pieces s).flatten := List.mem_flatten.mpr ⟨piece, own, member⟩
  exact flatten_pieces s ▸ inside

/-- A text without carriage returns has the same lines as the text with returns. -/
theorem lines_putReturns {s : List Char} (plain : '\r' ∉ s)
    : lines (putReturns s) = lines s := by
  have alike : ∀ piece ∈ pieces s, dropTerminator (putReturns piece) = dropTerminator piece := by
    intro piece own
    have noReturn : '\r' ∉ piece := fun member => plain (mem_of_mem_piece own member)
    obtain ⟨content, noFeed, rfl | rfl⟩ := exists_plain_of_mem_pieces piece own
    · exact congrArg dropTerminator (putReturns_of_plain noFeed)
    · have inline : Inline content := by
        intro c member
        have notFeed : c ≠ '\n' := fun same => noFeed (same ▸ member)
        have notReturn : c ≠ '\r' :=
          fun same => noReturn (List.mem_append_left _ (same ▸ member))
        simp [isLineEnd, notFeed, notReturn]
      have put : putReturns (content ++ ['\n']) = content ++ ['\r', '\n'] := by
        rw [putReturns_append, putReturns_of_plain noFeed]
        rfl
      rw [put, dropTerminator_append inline (Or.inr rfl),
        dropTerminator_append inline (Or.inl rfl)]
  simp only [lines, pieces_putReturns, List.map_map]
  exact List.map_congr_left alike

-----------------------------------------------------------------------------------------
-- Content and ending of a piece
-----------------------------------------------------------------------------------------

/-- There are only line ends behind the content of a piece. -/
theorem isLineEnd_of_mem_endingOf {piece : List Char}
    : ∀ c ∈ endingOf piece, isLineEnd c = true := by
  have whole : piece.reverse
      = piece.reverse.takeWhile isLineEnd ++ piece.reverse.dropWhile isLineEnd :=
    List.takeWhile_append_dropWhile.symm
  have split := congrArg List.reverse whole
  rw [List.reverse_append, List.reverse_reverse] at split
  have rest : endingOf piece = (piece.reverse.takeWhile isLineEnd).reverse :=
    List.append_cancel_left ((contentOf_append_endingOf piece).trans split)
  intro c member
  rw [rest, List.mem_reverse] at member
  exact List.mem_takeWhile_imp member

/-- The content of each piece of a text is free of line feeds. -/
theorem feed_not_mem_contentOf_of_mem_pieces {s : List Char}
    : ∀ piece ∈ pieces s, '\n' ∉ contentOf piece := by
  intro piece own
  have feedIsEnd : ∀ c ∈ ['\n'], isLineEnd c = true := isLineEnd_of_ending (Or.inl rfl)
  obtain ⟨content, noFeed, rfl | rfl⟩ := exists_plain_of_mem_pieces piece own
  · exact fun member => noFeed ((contentOf_isPrefix piece).mem member)
  · rw [contentOf_append_ends content feedIsEnd]
    exact fun member => noFeed ((contentOf_isPrefix content).mem member)

theorem putReturns_eq {piece : List Char} (plain : '\n' ∉ contentOf piece)
    : putReturns piece = contentOf piece ++ putReturns (endingOf piece) := by
  calc putReturns piece
      = putReturns (contentOf piece ++ endingOf piece) := by rw [contentOf_append_endingOf]
    _ = contentOf piece ++ putReturns (endingOf piece) := by
        rw [putReturns_append, putReturns_of_plain plain]

theorem contentOf_putReturns {piece : List Char} (plain : '\n' ∉ contentOf piece)
    : contentOf (putReturns piece) = contentOf piece := by
  have ends : ∀ c ∈ putReturns (endingOf piece), isLineEnd c = true := by
    intro c member
    rcases mem_of_mem_putReturns member with before | ⟨rfl, _⟩
    · exact isLineEnd_of_mem_endingOf c before
    · rfl
  rw [putReturns_eq plain, contentOf_append_ends _ ends, contentOf_contentOf]

theorem endingOf_putReturns {piece : List Char} (plain : '\n' ∉ contentOf piece)
    : endingOf (putReturns piece) = putReturns (endingOf piece) := by
  rw [endingOf, contentOf_putReturns plain, putReturns_eq plain, List.drop_left]

end Traceability.Text

namespace Traceability

/-- The lines of a text without carriage returns are numbered and read as those of the text with
returns. -/
theorem Line.ofText_withReturns {text : String} (plain : '\r' ∉ text.toList)
    : ofText (Text.withReturns text) = ofText text := by
  simp only [ofText, Text.toList_withReturns, Text.lines_putReturns plain]

end Traceability
