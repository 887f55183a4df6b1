import Traceability.Text.DecimalDigit
import Traceability.Line.Heading

/-! Lettered and numbered items.
An item is a label, a full stop or a closing parenthesis, blanks, and a text that is not empty.
Assertions are labelled by a capital letter and steps of a journey by a number.
-/

namespace Traceability

open Text

namespace Item

/-- The text of an item, from what follows its label. -/
def text? : List Char → Option (List Char)
  | mark :: c :: rest =>
      if (mark == '.' || mark == ')') && isBlank c then
        match Heading.singleLine? rest with
        | some [] => none
        | text => text
      else none
  | _ => none

/-- The letter and the text of an assertion line. -/
def assertion? (text : String) : Option (Char × String) :=
  match trimStart text.toList with
  | [] => none
  | letter :: rest =>
      if letter.isUpper then (text? rest).map (fun text => (letter, String.ofList text)) else none

/-- The text of a journey step. -/
def step? (text : String) : Option String :=
  let s := trimStart text.toList
  if s.takeWhile isDecimalDigit = [] then none
  else (text? (s.dropWhile isDecimalDigit)).map String.ofList

/-- Whether a line may continue the assertion before it: it is indented, holds something, and
is no assertion itself. -/
def continues (text : String) : Bool :=
  match text.toList with
  | [] => false
  | c :: rest => isBlank c && !rest.all isBlank && (assertion? text).isNone

end Item

end Traceability
