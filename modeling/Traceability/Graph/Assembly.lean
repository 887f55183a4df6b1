import Traceability.Claim.Registry
import Traceability.Graph.Basic
import Traceability.Scheme.Identifier

/-! Assembly of a graph from the blocks of files.
All nodes are created first, so that a reference may point at a node of a later file. A second
definition of a requirement keeps nothing: no assertions and no references.
-/

namespace Traceability

/-- A written reference. It becomes edges when every node exists. -/
structure PendingReference where
  source : String
  target : String
  kind : EdgeKind
  line : Nat
deriving Repr, DecidableEq

namespace PendingReference

/-- The edges of a reference. One that names several assertions is an edge to their requirement
for each letter. -/
def edges (scheme : Scheme) (reference : PendingReference) : List Edge :=
  let whole : Edge :=
    { source := reference.source, target := reference.target, kind := reference.kind,
      line := reference.line }
  let letters :=
    if reference.kind = .addresses then []
    else ((scheme.parseId? reference.target).map Identifier.letters).getD []
  if letters.length ≤ 1 then [whole]
  else
    let base := reference.target.toList.take (reference.target.length - 2 * letters.length)
    letters.map (fun letter =>
      { whole with target := String.ofList base, letters := [letter.toString] })

end PendingReference

/-- A graph under assembly, with the references that wait for its nodes. -/
structure Assembly where
  graph : Graph := {}
  pending : List PendingReference := []
  roots : List String := []

namespace Assembly

/-- The node of a requirement. -/
def requirementNode (path : String) (block : Block) (requirement : Requirement) : Node :=
  let node : Node :=
    { id := requirement.id
      kind := .requirement
      label := requirement.title
      source := ⟨path, block.startLine, block.endLine⟩ }
  node.withField FieldKey.title (.text requirement.title)
    |>.withText FieldKey.level requirement.level
    |>.withText FieldKey.status requirement.status
    |>.withText FieldKey.hash requirement.storedHash
    |>.withField FieldKey.body (.text requirement.body)
    |>.withField FieldKey.hasMetadata (.flag requirement.hasMetadata)
    |>.withField FieldKey.implementsTargets (.list requirement.implementsTargets)
    |>.withField FieldKey.refinesTargets (.list requirement.refinesTargets)
    |>.withField FieldKey.addressesTargets (.list requirement.addressesTargets)
    |>.withField FieldKey.assertions
      (.list (requirement.assertions.map (fun assertion => assertion.letter.toString)))
    |>.withField FieldKey.endMarker (.text requirement.endMarker)
    |>.withField FieldKey.endLine (.int requirement.endLine)

/-- The node of an assertion. -/
def assertionNode (path requirement : String) (assertion : Assertion) : Node :=
  let letter := assertion.letter.toString
  let node : Node :=
    { id := assertionId requirement letter
      kind := .assertion
      label := assertion.text
      source := Location.ofLine path assertion.line }
  node.withField FieldKey.requirement (.text requirement)
    |>.withField FieldKey.label (.text letter)
    |>.withField FieldKey.text (.text assertion.text)

/-- The node of a journey. -/
def journeyNode (path : String) (block : Block) (journey : Journey) : Node :=
  let node : Node :=
    { id := journey.id
      kind := .journey
      label := journey.title
      source := ⟨path, block.startLine, block.endLine⟩ }
  node.withField FieldKey.title (.text journey.title)
    |>.withText FieldKey.actor journey.actor
    |>.withText FieldKey.goal journey.goal
    |>.withField FieldKey.steps (.list journey.steps)

/-- The node of a reference. Its identifier is the place where it is written. -/
def referenceNode (kind : NodeKind) (path : String) (block : Block) (reference : Reference)
    : Node :=
  let place := path ++ ":" ++ toString block.startLine
  let node : Node :=
    { id := kind.word ++ ":" ++ place
      kind
      label := reference.label.getD place
      source := ⟨path, block.startLine, block.endLine⟩ }
  node.withField FieldKey.targets (.list (reference.targets.map Target.id))

/-- Adds an assertion of a requirement, and the edge to it if it is new. -/
def addAssertion (path requirement : String) (graph : Graph) (assertion : Assertion) : Graph :=
  let node := assertionNode path requirement assertion
  if graph.contains node.id then graph.addNode node
  else
    (graph.addNode node).addEdge
      { source := requirement, target := node.id, kind := .contains, line := assertion.line }

/-- The references that a requirement declares on its metadata line. -/
def declared (block : Block) (requirement : Requirement) : List PendingReference :=
  let make (kind : EdgeKind) (target : String) : PendingReference :=
    ⟨requirement.id, target, kind, block.startLine⟩
  requirement.implementsTargets.map (make .implements)
    ++ requirement.refinesTargets.map (make .refines)
    ++ requirement.addressesTargets.map (make .addresses)

def addRequirement (path : String) (assembly : Assembly) (block : Block)
    (requirement : Requirement)
    : Assembly :=
  let node := requirementNode path block requirement
  if assembly.graph.contains node.id then
    { assembly with graph := assembly.graph.addNode node }
  else
    let isRoot :=
      requirement.implementsTargets.isEmpty && requirement.refinesTargets.isEmpty
    { graph := requirement.assertions.foldl (addAssertion path requirement.id)
        (assembly.graph.addNode node)
      pending := assembly.pending ++ declared block requirement
      roots := if isRoot then assembly.roots ++ [requirement.id] else assembly.roots }

def addReference (nodeKind : NodeKind) (edgeKind : EdgeKind) (path : String)
    (assembly : Assembly) (block : Block) (reference : Reference)
    : Assembly :=
  let node := referenceNode nodeKind path block reference
  if assembly.graph.contains node.id then
    { assembly with graph := assembly.graph.addNode node }
  else
    { assembly with
      graph := assembly.graph.addNode node
      pending := assembly.pending
        ++ reference.targets.map (fun target => ⟨node.id, target.id, edgeKind, target.line⟩) }

def addBlock (path : String) (assembly : Assembly) (block : Block) : Assembly :=
  match block.content with
  | .requirement requirement => addRequirement path assembly block requirement
  | .journey journey =>
      { assembly with graph := assembly.graph.addNode (journeyNode path block journey) }
  | .codeReference reference => addReference .code .implements path assembly block reference
  | .testReference reference => addReference .test .validates path assembly block reference
  | .comment _ _ => assembly
  | .remainder => assembly

def addFile (assembly : Assembly) (file : ParsedFile) : Assembly :=
  let assembly := file.blocks.foldl (addBlock file.path) assembly
  { assembly with
    graph := assembly.graph.recordFile file.path ⟨file.lineCount, file.suppressions⟩ }

/-- The graph with the edges of all references that waited. -/
def finish (scheme : Scheme) (assembly : Assembly) : Graph :=
  let edges := assembly.pending.flatMap (PendingReference.edges scheme)
  { edges.foldl Graph.addEdge assembly.graph with roots := assembly.roots }

end Assembly

/-- The graph of parsed files. -/
def Graph.assemble (scheme : Scheme) (files : List ParsedFile) : Graph :=
  (files.foldl Assembly.addFile {}).finish scheme

end Traceability
