import Traceability.Claim.Claimant

/-! Comment blocks.
A comment opens at the start of a line, blanks aside, and goes to the first closing sign, on
its own line or on a later one of the same run. A comment that is never closed is no block, and
one that opens with a reference marker is left to the readers of references.
-/

namespace Traceability.Claim

open Text

namespace Comment

def openSign : List Char := "<!--".toList

def closeSign : List Char := "-->".toList

/-- The text without the opening signs at its start. -/
def dropOpenSigns : List Char → List Char
  | '<' :: '!' :: '-' :: '-' :: rest => dropOpenSigns rest
  | s => s

/-- What a comment says: its trimmed lines without the signs, blanks and rules around it. -/
def payload (lines : List Line) : List Char :=
  let inner := dropOpenSigns (trim (join ['\n'] (lines.map (fun line => trim line.text.toList))))
  let inner := ((cutLast? closeSign inner).map Prod.fst).getD inner
  trimWhile (fun c => c == '-' || c == '=' || c == '*' || isBlank c) inner

/-- Whether a text starts with the keyword and a colon. -/
def startsMarker (keyword : String) (s : List Char) : Bool :=
  match stripLetters? keyword.toList s with
  | some rest => (strip? [':'] (trimStart rest)).isSome
  | none => false

/-- Whether what follows the opening sign is a reference marker. -/
def opensReference (scheme : Scheme) (afterOpen : List Char) : Bool :=
  let s := trimStart afterOpen
  startsMarker scheme.implementsKeyword s || startsMarker scheme.validatesKeyword s

/-- What follows the opening sign, on a line where a comment opens. -/
def afterOpen? (scheme : Scheme) (text : String) : Option (List Char) :=
  match strip? openSign (trimStart text.toList) with
  | some rest => if opensReference scheme rest then none else some rest
  | none => none

def closes (line : Line) : Bool :=
  contains closeSign line.text.toList

def content (lines : List Line) : Content :=
  let text := payload lines
  .comment (String.ofList text) text.isEmpty

def opens? (scheme : Scheme) (line : Line) (rest : List Line) : Option (Nat × Content) := do
  let afterOpen ← afterOpen? scheme line.text
  if contains closeSign afterOpen then return (0, content [line])
  else
    let (inner, last) ← line.upTo? closes (fun _ => false) rest
    return (inner.length + 1, content (line :: inner ++ [last]))

end Comment

def comment : Claimant where
  name := "comment"
  priority := 0
  claim context := Block.sweep (Comment.opens? context.scheme)

end Traceability.Claim
