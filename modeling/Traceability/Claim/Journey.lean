import Traceability.Claim.Requirement

/-! Journey blocks.
A block goes from a journey heading to the first closing marker of its run. There is no block
if the heading of another journey or of a requirement comes first.
-/

namespace Traceability.Claim

namespace Journey

/-- The journey with this heading and these lines after it. Of several actors or goals the last
one counts. -/
def ofBlock (heading : Heading) (inner : List Line) : Journey :=
  let fields := inner.flatMap (fun line => Field.ofLine line.text)
  { id := heading.id
    title := heading.title
    actor := Field.value? fields "actor"
    goal := Field.value? fields "goal"
    steps := inner.filterMap (fun line => Item.step? line.text) }

/-- Whether a line is a heading, which ends the search for a closing marker. -/
def stops (scheme : Scheme) (line : Line) : Bool :=
  (Heading.journey? scheme line.text).isSome || Heading.opensRequirement scheme line.text

def opens? (scheme : Scheme) (line : Line) (rest : List Line) : Option (Nat × Content) := do
  let heading ← Heading.journey? scheme line.text
  let (inner, _) ← line.upTo? closesBlock (stops scheme) rest
  return (inner.length + 1, .journey (ofBlock heading inner))

end Journey

def journey : Claimant where
  name := "journey"
  priority := 60
  claim context := Block.sweep (Journey.opens? context.scheme)

end Traceability.Claim
