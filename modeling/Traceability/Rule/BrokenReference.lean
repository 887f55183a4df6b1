import Traceability.Rule.Basic

/-! Broken references and suppression budgets.
A reference is broken if its target does not exist or lacks a letter that it names. The edges of
one written reference make one finding. A file may announce broken references: the budget at a
line is the sum of the counts announced before it, and findings spend it in the order of lines.
The sum is a number of 64 bits.
-/

namespace Traceability

/-- A reference as it is written. The edges of a reference to several letters share it. -/
structure WrittenReference where
  source : String
  line : Nat
  kind : EdgeKind
  target : String
deriving Repr, DecidableEq

namespace WrittenReference

def ofEdge (edge : Edge) : WrittenReference :=
  ⟨edge.source, edge.line, edge.kind, edge.target⟩

/-- By source, then by line, then by kind, then by target. -/
def order : WrittenReference → WrittenReference → Ordering :=
  compareLex (compareOn WrittenReference.source)
    (compareLex (compareOn WrittenReference.line)
      (compareLex (compareOn (fun reference => reference.kind.rank))
        (compareOn WrittenReference.target)))

end WrittenReference

namespace Graph

/-- The letters that an edge names and its target lacks. -/
def missingLetters (graph : Graph) (edge : Edge) : List String :=
  match graph.node? edge.target with
  | some target =>
      edge.letters.filter (fun letter => !(target.list FieldKey.assertions).contains letter)
  | none => []

/-- Whether an edge is a reference that leads nowhere. -/
def isBroken (graph : Graph) (edge : Edge) : Bool :=
  edge.kind ≠ .contains && (!graph.isResolved edge || graph.missingLetters edge ≠ [])

/-- The broken references in order, each with the letters that its target lacks. -/
def brokenReferences (graph : Graph) : List (WrittenReference × List String) :=
  let edges := graph.edges.toList.filter graph.isBroken
  let references := (edges.map WrittenReference.ofEdge).mergeSort
    (fun a b => (WrittenReference.order a b).isLE)
  references.eraseDups.map (fun reference =>
    let own := edges.filter (fun edge => WrittenReference.ofEdge edge = reference)
    (reference, own.flatMap graph.missingLetters))

end Graph

namespace BrokenReference

/-- How many broken references a file may hold up to a line. Beyond the largest number of 64 bits
the sum starts again from zero. -/
def budget (markers : List Suppression) (line : Nat) : UInt64 :=
  (markers.filter (fun marker => marker.line < line)).foldl
    (fun total marker => total + UInt64.ofNat marker.count) 0

/-- Marks findings as suppressed, in the order given, as long as the budget of their line is not
spent. -/
def spend (markers : List Suppression) (used : Nat) : List (Nat × Finding) → List Finding
  | [] => []
  | (line, finding) :: rest =>
      if used < (budget markers line).toNat then
        { finding with suppressed := true } :: spend markers (used + 1) rest
      else finding :: spend markers used rest

/-- Why a reference is broken. -/
def reason (reference : WrittenReference) (letters : List String) : String :=
  let what := reference.kind.word ++ " " ++ reference.target
  if letters = [] then what ++ " which does not exist"
  else
    what ++ " names assertion " ++ String.intercalate ", " letters ++ " which does not exist"

/-- The path, the line and the finding of a broken reference. -/
def finding? (graph : Graph) (reference : WrittenReference) (letters : List String)
    : Option (String × Nat × Finding) :=
  (graph.node? reference.source).map (fun source =>
    (source.source.path, reference.line,
      { rule := "broken_reference"
        severity := .error
        nodeId := some source.id
        message := source.label ++ " " ++ reason reference letters
        location := some (Location.ofLine source.source.path reference.line) }))

/-- The findings, file by file and in the order of lines. -/
def check (context : RuleContext) : List Finding :=
  let graph := context.graph
  let found := graph.brokenReferences.filterMap (fun (reference, letters) =>
    finding? graph reference letters)
  let paths := ((found.map Prod.fst).mergeSort (fun a b => (compare a b).isLE)).eraseDups
  paths.flatMap (fun path =>
    let markers := ((graph.files[path]?).map FileFacts.suppressions).getD []
    let own := (found.filter (fun (other, _) => other == path)).map Prod.snd
    spend markers 0 (own.mergeSort (fun a b => a.1 ≤ b.1)))

end BrokenReference

namespace Rule

def brokenReference : Rule where
  name := "broken_reference"
  check := BrokenReference.check

end Rule

end Traceability
