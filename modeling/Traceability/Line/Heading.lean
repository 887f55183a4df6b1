import Traceability.Scheme.Identifier
import Traceability.Line.Basic

/-! Headings of requirements and journeys.
A heading is one to six number signs, blanks, an identifier, a colon and a title. A line that
has all of this but whose title is no single line still ends a block of the other kind.
-/

namespace Traceability

open Text

structure Heading where
  id : String
  title : String
deriving Repr, DecidableEq

namespace Heading

/-- The text after one to six number signs and the blanks behind them. -/
def afterSigns? (s : List Char) : Option (List Char) :=
  let signs := s.takeWhile (· == '#')
  match s.dropWhile (· == '#') with
  | [] => none
  | c :: rest =>
      if 1 ≤ signs.length ∧ signs.length ≤ 6 ∧ isBlank c then some (trimStart (c :: rest))
      else none

/-- The text after a colon that blanks may precede. -/
def afterColon? (s : List Char) : Option (List Char) :=
  strip? [':'] (trimStart s)

/-- A text without the blanks around it, if that is a single line. -/
def singleLine? (s : List Char) : Option (List Char) :=
  let t := trim s
  if t.contains '\n' then none else some t

/-- The identifier of a heading and the text after its colon. -/
def parts? (takeId? : List Char → Option (List Char × List Char)) (text : String)
    : Option (List Char × List Char) := do
  let s ← afterSigns? text.toList
  let (id, rest) ← takeId? s
  let rest ← afterColon? rest
  return (id, rest)

/-- The heading that a line is. -/
def ofParts? (takeId? : List Char → Option (List Char × List Char)) (text : String)
    : Option Heading := do
  let (id, rest) ← parts? takeId? text
  let title ← singleLine? rest
  return ⟨String.ofList id, String.ofList title⟩

def requirement? (scheme : Scheme) (text : String) : Option Heading :=
  ofParts? scheme.takeId? text

def journey? (scheme : Scheme) (text : String) : Option Heading :=
  ofParts? scheme.takeJourneyId? text

/-- Whether a line opens like a requirement heading, whatever its title. -/
def opensRequirement (scheme : Scheme) (text : String) : Bool :=
  (parts? scheme.takeId? text).isSome

/-- Whether a line opens like a journey heading, whatever its title. -/
def opensJourney (scheme : Scheme) (text : String) : Bool :=
  (parts? scheme.takeJourneyId? text).isSome

end Heading

end Traceability
