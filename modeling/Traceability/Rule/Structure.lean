import Traceability.Rule.Basic

/-! Rules on how nodes hang together: identifiers defined twice, nodes that nothing connects,
parents at levels that are not permitted, and cycles.
-/

namespace Traceability.Rule

/-- An error for each further definition of an identifier. -/
def duplicateId : Rule where
  name := "duplicate_id"
  check context :=
    context.graph.duplicates.map (fun duplicate =>
      { rule := "duplicate_id"
        severity := .error
        nodeId := some duplicate.id
        message := duplicate.id ++ " is defined at " ++ duplicate.first.describe
          ++ " and again at " ++ duplicate.duplicate.describe
        location := some duplicate.duplicate
        related := [duplicate.first] })

namespace Orphan

/-- Whether a requirement declares parents of which none exists, and nothing refers to it or to
one of its assertions. -/
def isCutOff (graph : Graph) (node : Node) : Bool :=
  let hasParent := (graph.outgoing node.id).any (fun edge =>
    edge.kind.isParentage && graph.isResolved edge)
  let isReferenced := (graph.idAndAssertions node.id).any (fun id =>
    (graph.incoming id).any (fun edge => edge.kind.covers || edge.kind.isParentage))
  !graph.roots.contains node.id && !hasParent && !isReferenced

def isUnaddressed (graph : Graph) (node : Node) : Bool :=
  !(graph.incoming node.id).any (fun edge => edge.kind = .addresses)

end Orphan

/-- A warning for each requirement that is cut off, and a note for each journey that no
requirement addresses. -/
def orphan : Rule where
  name := "orphan"
  check context :=
    let graph := context.graph
    (graph.requirements.filter (Orphan.isCutOff graph)).map (fun node =>
      node.finding "orphan" .warning
        (node.id ++ " has no resolvable parent and nothing references it"))
    ++ ((graph.nodesOfKind .journey).filter (Orphan.isUnaddressed graph)).map (fun node =>
      node.finding "orphan" .info (node.id ++ " is not addressed by any requirement"))

namespace Hierarchy

/-- The requirements that a requirement declares as parents, each once, with the kind of the
first edge to it. An assertion stands for its requirement. -/
def parents (graph : Graph) (node : Node) : List (EdgeKind × Node) :=
  let edges := (graph.outgoing node.id).filter (fun edge => edge.kind.isParentage)
  let found := edges.filterMap (fun edge =>
    (graph.owner? edge.target).map (fun owner => (edge.kind, owner)))
  found.eraseDupsBy (fun a b => a.2.id == b.2.id)

/-- The way a parent is declared. -/
def verb : EdgeKind → String
  | .refines => "refines"
  | _ => "implements"

def finding? (scheme : Scheme) (node : Node) (level : Level) (kind : EdgeKind) (parent : Node)
    : Option Finding := do
  let parentLevel ← scheme.levelOf? parent
  if scheme.permitsParent level parentLevel then none
  else
    let message := node.id ++ " (" ++ level.name ++ ") may not " ++ verb kind ++ " " ++ parent.id
      ++ " (" ++ parentLevel.name ++ ")"
    return { node.finding "hierarchy" .error message with related := [parent.source] }

end Hierarchy

/-- An error for each parent whose level is not permitted above that of the requirement. -/
def hierarchy : Rule where
  name := "hierarchy"
  check context :=
    context.graph.requirements.flatMap (fun node =>
      match context.scheme.levelOf? node with
      | none => []
      | some level =>
          (Hierarchy.parents context.graph node).filterMap (fun (kind, parent) =>
            Hierarchy.finding? context.scheme node level kind parent))

/-- An error for each cycle, at its first member. -/
def cycle : Rule where
  name := "cycle"
  check context :=
    context.coverage.cycles.filterMap (fun members => do
      let first ← context.graph.node? (← members.head?)
      let message := "IMPLEMENTS cycle among " ++ String.intercalate ", " members
        ++ "; excluded from coverage"
      return {
        first.finding "cycle" .error message with
        related := (members.tail.filterMap context.graph.node?).map Node.source })

end Traceability.Rule
