import Traceability.Text.Blank

/-! Texts as lines.
A text is the concatenation of its pieces, each of which ends right after a line feed except
perhaps the last. A line is a piece without its line feed and without one carriage return
directly before that line feed; any other carriage return belongs to the line.
-/

namespace Traceability.Text

/-- Puts a character before the first piece; a line feed is a piece of its own there. -/
def pushPiece (c : Char) (pieces : List (List Char)) : List (List Char) :=
  if c = '\n' then [c] :: pieces
  else
    match pieces with
    | [] => [[c]]
    | piece :: rest => (c :: piece) :: rest

/-- The pieces of a text, each up to and with its line feed. -/
def pieces (s : List Char) : List (List Char) :=
  s.foldr pushPiece []

/-- A piece without its line feed and the carriage return directly before it. -/
def dropTerminator (piece : List Char) : List Char :=
  match piece.reverse with
  | '\n' :: '\r' :: rest => rest.reverse
  | '\n' :: rest => rest.reverse
  | _ => piece

/-- The lines of a text. A final line feed opens no further line. -/
def lines (s : List Char) : List (List Char) :=
  (pieces s).map dropTerminator

/-- The pieces of a text are the text, cut. -/
theorem flatten_pieces (s : List Char) : (pieces s).flatten = s := by
  induction s with
  | nil => rfl
  | cons c s ih =>
      have hc : pieces (c :: s) = pushPiece c (pieces s) := rfl
      rw [hc]
      by_cases h : c = '\n'
      · simp [pushPiece, h, ih]
      · cases hp : pieces s with
        | nil => simpa [pushPiece, h, hp] using ih
        | cons piece rest => simpa [pushPiece, h, hp] using ih

end Traceability.Text
