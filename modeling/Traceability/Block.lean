import Traceability.Line.Basic

/-! Blocks: what the lines of a file are taken for.
A block covers a run of consecutive lines and carries what was read from them. A file is cut
into blocks, so a block also stands for lines that mean nothing here.
-/

namespace Traceability

/-- A lettered statement inside a requirement. -/
structure Assertion where
  letter : Char
  text : String
  line : Nat
deriving Repr, DecidableEq

/-- A requirement as written. The body is the text between the metadata line and the closing
marker, which is kept word for word. -/
structure Requirement where
  id : String
  title : String
  level : Option String
  status : Option String
  hasMetadata : Bool
  implementsTargets : List String
  refinesTargets : List String
  addressesTargets : List String
  assertions : List Assertion
  body : String
  storedHash : Option String
  endMarker : String
  endLine : Nat
deriving Repr, DecidableEq

/-- A user journey as written. -/
structure Journey where
  id : String
  title : String
  actor : Option String
  goal : Option String
  steps : List String
deriving Repr, DecidableEq

/-- A target that a reference names, and the line on which it does. -/
structure Target where
  id : String
  line : Nat
deriving Repr, DecidableEq

/-- A reference from code or a test. A reference read from a function name is labelled by it. -/
structure Reference where
  targets : List Target
  label : Option String
deriving Repr, DecidableEq

inductive Content where
  | comment (text : String) (decorative : Bool)
  | requirement (requirement : Requirement)
  | journey (journey : Journey)
  | codeReference (reference : Reference)
  | testReference (reference : Reference)
  | remainder
deriving Repr, DecidableEq

structure Block where
  startLine : Nat
  endLine : Nat
  rawText : String
  content : Content
deriving Repr, DecidableEq

namespace Block

def includes (block : Block) (number : Nat) : Bool :=
  block.startLine ≤ number && number ≤ block.endLine

/-- The block of a line and the lines after it. -/
def ofLines (first : Line) (further : List Line) (content : Content) : Block where
  startLine := first.number
  endLine := ((first :: further).getLast (by simp)).number
  rawText := Line.joinTexts (first :: further)
  content

/-- The blocks of one sort, from the first line to the last. The test says of a line whether a
block starts there, how many further lines the block takes, and what it holds. -/
def sweep (opens? : Line → List Line → Option (Nat × Content)) : List Line → List Block
  | [] => []
  | line :: rest =>
      match opens? line rest with
      | none => sweep opens? rest
      | some (count, content) =>
          ofLines line (rest.take count) content :: sweep opens? (rest.drop count)
termination_by lines => lines.length

end Block

end Traceability
