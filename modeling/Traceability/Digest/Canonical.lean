import Traceability.Text.Lines
import Traceability.Text.Search

/-! The canonical form of a body.
Differences that a reader does not see are taken out before a body is hashed: the kind of line
ends, blanks at the ends of lines, blank lines around the body and rules after it.
-/

namespace Traceability.Canonical

open Text

/-- Every carriage return, with the line feed after it if there is one, as one line feed. -/
def unifyLineEnds : List Char → List Char
  | [] => []
  | '\r' :: '\n' :: rest => '\n' :: unifyLineEnds rest
  | '\r' :: rest => '\n' :: unifyLineEnds rest
  | c :: rest => c :: unifyLineEnds rest

def isRuleSign (c : Char) : Bool :=
  c == '-' || c == '*' || c == '_' || c == '='

/-- A horizontal rule: three or more rule signs, with blanks around them. -/
def isRule (line : List Char) : Bool :=
  let signs := trim line
  3 ≤ signs.length && signs.all isRuleSign

/-- The lines of a body that its digest depends on, without the blanks at their ends. -/
def lines (body : List Char) : List (List Char) :=
  let trimmed := (Text.lines (unifyLineEnds body)).map trimEnd
  let kept := (trimmed.reverse.dropWhile (fun line => line.isEmpty || isRule line)).reverse
  kept.dropWhile List.isEmpty

/-- The canonical form. -/
def form (body : List Char) : List Char :=
  join ['\n'] (lines body)

end Traceability.Canonical
