import Traceability.Claim.Claimant
import Traceability.Line.ClosingMarker
import Traceability.Line.Fields
import Traceability.Line.Item

/-! Requirement blocks.
A block goes from a requirement heading to the first closing marker of its run. There is no
block if the heading of another requirement or of a journey comes first.
-/

namespace Traceability.Claim

open Text

/-- Whether a line is a closing marker. -/
def closesBlock (line : Line) : Bool :=
  (ClosingMarker.ofLine? line.text).isSome

namespace Requirement

/-- Whether a line is the metadata line of a requirement. -/
def isMetadata (line : Line) : Bool :=
  (Field.ofLine line.text).any (fun field => field.key == "level" || field.key == "status")

/-- The assertions in the body of a requirement. The indented lines after an assertion continue
its text. -/
def assertions : List Line → List Assertion
  | [] => []
  | line :: rest =>
      match Item.assertion? line.text with
      | none => assertions rest
      | some (letter, text) =>
          let further := rest.takeWhile (fun line => Item.continues line.text)
          let texts := text.toList :: further.map (fun line => trim line.text.toList)
          ⟨letter, String.ofList (join [' '] texts), line.number⟩ :: assertions rest

/-- The targets of the last field with this key. -/
def targets (fields : List Field) (key : String) : List String :=
  ((Field.value? fields key).map targetList).getD []

/-- The requirement with this heading, these lines after it, and this closing line. -/
def ofBlock (heading : Heading) (inner : List Line) (last : Line) : Requirement :=
  let afterMetadata := inner.dropWhile (fun line => !isMetadata line)
  let fields := ((afterMetadata.head?).map (fun line => Field.ofLine line.text)).getD []
  let content := if afterMetadata = [] then inner else afterMetadata.tail
  { id := heading.id
    title := heading.title
    level := Field.value? fields "level"
    status := Field.value? fields "status"
    hasMetadata := afterMetadata ≠ []
    implementsTargets := targets fields "implements"
    refinesTargets := targets fields "refines"
    addressesTargets := targets fields "addresses"
    assertions := assertions content
    body := Line.joinTexts content
    storedHash := (ClosingMarker.ofLine? last.text).bind ClosingMarker.hash?
    endMarker := last.text
    endLine := last.number }

/-- Whether a line is a heading, which ends the search for a closing marker. -/
def stops (scheme : Scheme) (line : Line) : Bool :=
  (Heading.requirement? scheme line.text).isSome || Heading.opensJourney scheme line.text

def opens? (scheme : Scheme) (line : Line) (rest : List Line) : Option (Nat × Content) := do
  let heading ← Heading.requirement? scheme line.text
  let (inner, last) ← line.upTo? closesBlock (stops scheme) rest
  return (inner.length + 1, .requirement (ofBlock heading inner last))

end Requirement

def requirement : Claimant where
  name := "requirement"
  priority := 50
  claim context := Block.sweep (Requirement.opens? context.scheme)

end Traceability.Claim
