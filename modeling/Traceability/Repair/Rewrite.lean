import Traceability.Repair.Update
import Traceability.Text.Blank
import Traceability.Text.Lines
import Traceability.Text.Search

/-! Rewriting closing markers in a text.
A change applies to the recorded line if the marker still stands there, otherwise to the only
line that is the marker word for word. Nothing but the hash changes, and nothing at all if the
marker of some change cannot be found.
-/

namespace Traceability

/-- The closing marker of a requirement is not where it was read, or no longer as it was. -/
structure AnchorNotFound where
  path : String
  id : String
  line : Nat
deriving Repr, DecidableEq

def AnchorNotFound.message (error : AnchorNotFound) : String :=
  error.path ++ ": closing marker for " ++ error.id ++ " not found verbatim (expected at line "
    ++ toString error.line ++ ")"

namespace Rewrite

open Text

def isLineEnd (c : Char) : Bool :=
  c == '\n' || c == '\r'

/-- A piece without the line ends after it. -/
def contentOf (piece : List Char) : List Char :=
  dropEndWhile isLineEnd piece

/-- The line ends after the content of a piece. -/
def endingOf (piece : List Char) : List Char :=
  piece.drop (contentOf piece).length

/-- The positions of the pieces whose content is the anchor. -/
def matchesFrom (anchor : List Char) (position : Nat) : List (List Char) → List Nat
  | [] => []
  | piece :: rest =>
      if contentOf piece = anchor then position :: matchesFrom anchor (position + 1) rest
      else matchesFrom anchor (position + 1) rest

/-- The position of the piece that a change applies to. -/
def locate? (pieces : List (List Char)) (line : Nat) (anchor : List Char) : Option Nat :=
  if line = 0 then none
  else if (pieces[line - 1]?).map contentOf = some anchor then some (line - 1)
  else
    match matchesFrom anchor 0 pieces with
    | [position] => some position
    | _ => none

/-- The content of a closing marker with the new hash: in place of the old one where it follows
the last mention of the hash key, or after the marker if it has none. -/
def replaceHash? (content : List Char) (stored : Option (List Char)) (computed : List Char)
    : Option (List Char) :=
  match stored with
  | none => some (trimEnd content ++ " | **Hash**: ".toList ++ computed)
  | some stored => do
      let (before, after) ← cutLast? "**Hash**".toList content
      let (skipped, rest) ← cutFirst? stored ("**Hash**".toList ++ after)
      return before ++ skipped ++ computed ++ rest

/-- The pieces after a change. -/
def change? (pieces : List (List Char)) (update : HashUpdate) : Option (List (List Char)) := do
  let position ← locate? pieces update.line update.anchor.toList
  let piece ← pieces[position]?
  let replaced ← replaceHash? (contentOf piece) (update.stored.map String.toList)
    update.computed.toList
  return pieces.set position (replaced ++ endingOf piece)

/-- The pieces after all changes, one after the other. -/
def applyAll (path : String) (pieces : List (List Char))
    : List HashUpdate → Except AnchorNotFound (List (List Char))
  | [] => .ok pieces
  | update :: rest =>
      match change? pieces update with
      | some pieces => applyAll path pieces rest
      | none => .error ⟨path, update.id, update.line⟩

/-- The text after all changes. -/
def rewrite (path text : String) (updates : List HashUpdate) : Except AnchorNotFound String :=
  match applyAll path (pieces text.toList) updates with
  | .ok pieces => .ok (String.ofList pieces.flatten)
  | .error error => .error error

end Rewrite

end Traceability
