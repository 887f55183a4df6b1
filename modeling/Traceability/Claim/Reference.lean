import Traceability.Claim.Claimant
import Traceability.Line.Definition
import Traceability.Line.Marker

/-! Blocks of references from code and tests.
A marker that names a target is a block of one line. A marker that names nothing at all takes
the continuation lines after it. Test files also refer by the names of their functions.
-/

namespace Traceability.Claim

namespace Reference

/-- The targets that a line names with these words. -/
def targetsOn (number : Nat) (words : List (List Char)) : List Target :=
  words.map (fun word => ⟨String.ofList word, number⟩)

/-- The targets of a continuation line: it holds at least one word, and only targets. -/
def continuation? (idPrefix : String) (line : Line) : Option (List Target) := do
  let rest ← Marker.continuation? line.text.toList
  let words := Marker.words rest
  if words ≠ [] ∧ words.all (Marker.isTarget idPrefix) then some (targetsOn line.number words)
  else none

/-- The targets of the continuation lines right after a line, a list for each. -/
def continuations (idPrefix : String) (line : Line) : List Line → List (List Target)
  | [] => []
  | next :: rest =>
      if next.number ≠ line.number + 1 then []
      else
        match continuation? idPrefix next with
        | none => []
        | some targets => targets :: continuations idPrefix next rest

/-- The further lines and the targets of a marker. -/
def marked? (idPrefix keyword : String) (line : Line) (rest : List Line)
    : Option (Nat × List Target) := do
  let words := Marker.words (← Marker.rest? keyword.toList line.text.toList)
  let named := words.filter (Marker.isTarget idPrefix)
  if words = [] then
    let further := continuations idPrefix line rest
    if further = [] then none else return (further.length, further.flatten)
  else if named = [] then none
  else return (0, targetsOn line.number named)

/-- The blocks of the markers with a keyword. -/
def markers (make : Traceability.Reference → Content) (idPrefix keyword : String)
    : List Line → List Block :=
  Block.sweep (fun line rest =>
    (marked? idPrefix keyword line rest).map (fun (count, targets) =>
      (count, make { targets, label := none })))

/-- The block of a line that defines a test function named after requirements. -/
def ofDefinition? (scheme : Scheme) (line : Line) : Option Block := do
  let name ← Definition.name? line.text
  if Definition.namesTest name then
    match Definition.ids scheme name with
    | [] => none
    | ids =>
        let targets := targetsOn line.number ids
        return Block.ofLines line []
          (.testReference { targets, label := some (String.ofList name) })
  else none

/-- The blocks of markers and of function names on other lines, by first line. -/
def withDefinitions (scheme : Scheme) (marked : List Block) (lines : List Line) : List Block :=
  let others := lines.filter (fun line => !marked.any (fun block => block.includes line.number))
  (marked ++ others.filterMap (ofDefinition? scheme)).mergeSort
    (fun a b => a.startLine ≤ b.startLine)

end Reference

def codeReference : Claimant where
  name := "code-ref"
  priority := 70
  claim context :=
    Reference.markers .codeReference context.scheme.idPrefix context.scheme.implementsKeyword

def testReference : Claimant where
  name := "test-ref"
  priority := 80
  claim context lines :=
    let marked := Reference.markers .testReference context.scheme.idPrefix
      context.scheme.validatesKeyword lines
    if context.scheme.testNameReferences && context.isTestFile then
      Reference.withDefinitions context.scheme marked lines
    else marked

end Traceability.Claim
