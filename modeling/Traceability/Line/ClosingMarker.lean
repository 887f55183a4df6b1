import Traceability.Text.Blank
import Traceability.Text.Search

/-! Closing markers of blocks.
A closing marker is `*End*`, blanks, a name between asterisks, and optionally a bar with the
stored hash of the block.
-/

namespace Traceability

open Text

structure ClosingMarker where
  name : String
  hash? : Option String
deriving Repr, DecidableEq

namespace ClosingMarker

/-- The stored hash in what follows the name: a bar, the key and a colon, with blanks between
them, then a run of other characters and blanks up to the end. -/
def storedHash? (s : List Char) : Option (List Char) := do
  let s ← strip? ['|'] (trimStart s)
  let s ← strip? "**Hash**".toList (trimStart s)
  let s ← strip? [':'] (trimStart s)
  let s := trimStart s
  let hash := s.takeWhile (fun c => !isBlank c)
  if hash ≠ [] ∧ (s.dropWhile (fun c => !isBlank c)).all isBlank then some hash else none

/-- The closing marker whose name stands at the start of a text. -/
def named? (s : List Char) : Option ClosingMarker := do
  let s ← strip? ['*'] s
  let name := s.takeWhile (· != '*')
  let rest ← strip? ['*'] (s.dropWhile (· != '*'))
  if name = [] then none
  else if rest.all isBlank then return ⟨String.ofList name, none⟩
  else
    let hash ← storedHash? rest
    return ⟨String.ofList name, some (String.ofList hash)⟩

/-- The closing marker that a line is. -/
def ofLine? (text : String) : Option ClosingMarker :=
  match strip? "*End*".toList text.toList with
  | some (c :: s) => if isBlank c then named? (trimStart s) else none
  | _ => none

end ClosingMarker

end Traceability
