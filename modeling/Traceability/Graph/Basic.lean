import Traceability.Graph.Edge
import Traceability.Graph.Metrics
import Traceability.Graph.Node
import Traceability.Suppression

/-! The traceability graph.
Nodes are kept by identifier and edges in the order of insertion. A node records the positions
of its edges, those that were inserted while the node was present. The first definition of an
identifier stays, and every further one is recorded as a duplicate.
-/

namespace Traceability

/-- A further definition of an identifier that was already taken. -/
structure Duplicate where
  id : String
  first : Location
  duplicate : Location
deriving Repr, DecidableEq

/-- What is kept of a file besides its nodes. -/
structure FileFacts where
  lineCount : Nat
  suppressions : List Suppression
deriving Repr, DecidableEq

/-- Every node of a map is kept under its own identifier. -/
def Keyed (nodes : Std.ExtTreeMap String Node) : Prop :=
  ∀ (id : String) (node : Node), nodes[id]? = some node → node.id = id

theorem Keyed.empty : Keyed ∅ := by
  intro id node look
  rw [Std.ExtTreeMap.getElem?_empty] at look
  exact absurd look (Option.some_ne_none node).symm

theorem Keyed.insert {nodes : Std.ExtTreeMap String Node} (h : Keyed nodes) (node : Node)
    : Keyed (nodes.insert node.id node) := by
  intro id found look
  rw [Std.ExtTreeMap.getElem?_insert] at look
  split at look
  · next same =>
      have here : node = found := Option.some.inj look
      rw [← here]
      exact Std.LawfulEqCmp.eq_of_compare same
  · exact h id found look

theorem Keyed.alter {nodes : Std.ExtTreeMap String Node} (h : Keyed nodes) (id : String)
    {f : Node → Node} (keeps : ∀ node, (f node).id = node.id)
    : Keyed (nodes.alter id (Option.map f)) := by
  intro other found look
  rw [Std.ExtTreeMap.getElem?_alter] at look
  split at look
  · next same =>
      obtain ⟨old, present, rfl⟩ := Option.map_eq_some_iff.mp look
      rw [keeps, h id old present]
      exact Std.LawfulEqCmp.eq_of_compare same
  · exact h other found look

structure Graph where
  nodes : Std.ExtTreeMap String Node := ∅
  edges : Array Edge := #[]
  /-- The requirements that declare no parent. -/
  roots : List String := []
  duplicates : List Duplicate := []
  metrics : Std.ExtTreeMap String Metrics := ∅
  files : Std.ExtTreeMap String FileFacts := ∅
  keyed : Keyed nodes := by exact Keyed.empty
deriving DecidableEq

namespace Graph

def empty : Graph := {}

def node? (graph : Graph) (id : String) : Option Node :=
  graph.nodes[id]?

def contains (graph : Graph) (id : String) : Bool :=
  graph.nodes.contains id

/-- The nodes, by identifier. -/
def nodeList (graph : Graph) : List Node :=
  graph.nodes.values

def nodesOfKind (graph : Graph) (kind : NodeKind) : List Node :=
  graph.nodeList.filter (fun node => node.kind = kind)

def requirements (graph : Graph) : List Node :=
  graph.nodesOfKind .requirement

def edgesOfKind (graph : Graph) (kind : EdgeKind) : List Edge :=
  graph.edges.toList.filter (fun edge => edge.kind = kind)

/-- Adds a node, or a duplicate if its identifier is taken. -/
def addNode (graph : Graph) (node : Node) : Graph :=
  match graph.node? node.id with
  | some existing =>
      { graph with duplicates := graph.duplicates ++ [⟨node.id, existing.source, node.source⟩] }
  | none =>
      { graph with nodes := graph.nodes.insert node.id node, keyed := graph.keyed.insert node }

/-- Changes a node that is present, but not its identifier. -/
def updateNode (graph : Graph) (id : String) (f : Node → Node)
    (keeps : ∀ node, (f node).id = node.id)
    : Graph :=
  { graph with
    nodes := graph.nodes.alter id (Option.map f)
    keyed := graph.keyed.alter id keeps }

/-- The position of the edge that says the same. -/
def position? (graph : Graph) (edge : Edge) : Option Nat :=
  graph.edges.findIdx? (Edge.same edge)

/-- Adds an edge unless there is one that says the same. -/
def addEdge (graph : Graph) (edge : Edge) : Graph :=
  if (graph.position? edge).isSome then graph
  else
    let position := graph.edges.size
    let graph := graph.updateNode edge.source
      (fun node => { node with outgoing := node.outgoing.push position }) (fun _ => rfl)
    let graph := graph.updateNode edge.target
      (fun node => { node with incoming := node.incoming.push position }) (fun _ => rfl)
    { graph with edges := graph.edges.push edge }

def recordFile (graph : Graph) (path : String) (facts : FileFacts) : Graph :=
  { graph with files := graph.files.insert path facts }

/-- Whether the target of an edge exists. -/
def isResolved (graph : Graph) (edge : Edge) : Bool :=
  graph.contains edge.target

def edgesAt (graph : Graph) (positions : Array Nat) : List Edge :=
  positions.toList.filterMap (fun position => graph.edges[position]?)

/-- The edges that leave a node. -/
def outgoing (graph : Graph) (id : String) : List Edge :=
  match graph.node? id with
  | some node => graph.edgesAt node.outgoing
  | none => []

/-- The edges that arrive at a node. -/
def incoming (graph : Graph) (id : String) : List Edge :=
  match graph.node? id with
  | some node => graph.edgesAt node.incoming
  | none => []

/-- The assertions of a node, in the order in which it lists their letters. -/
def assertionsOf (graph : Graph) (id : String) : List Node :=
  match graph.node? id with
  | some node =>
      (node.list FieldKey.assertions).filterMap (fun letter => graph.node? (assertionId id letter))
  | none => []

/-- A node and its assertions. -/
def idAndAssertions (graph : Graph) (id : String) : List String :=
  id :: (graph.assertionsOf id).map Node.id

def isRequirement (graph : Graph) (id : String) : Bool :=
  match graph.node? id with
  | some node => node.kind = .requirement
  | none => false

/-- The requirements under a node or one of its assertions, in the order of the edges. -/
def childrenOf (graph : Graph) (id : String) : List Node :=
  let edges := (graph.idAndAssertions id).flatMap graph.incoming
  let sources := (edges.filter (fun edge =>
    edge.kind.isParentage && graph.isRequirement edge.source)).map Edge.source
  sources.eraseDups.filterMap graph.node?

/-- The node that a node belongs to: a requirement to itself, an assertion to the node that it
names. -/
def owner? (graph : Graph) (id : String) : Option Node :=
  match graph.node? id with
  | none => none
  | some node =>
      match node.kind with
      | .requirement => some node
      | .assertion => (node.text? FieldKey.requirement).bind graph.node?
      | _ => none

/-- Changes the metrics of a node that exists; they start out empty. -/
def updateMetrics (graph : Graph) (id : String) (f : Metrics → Metrics) : Graph :=
  if graph.contains id then
    { graph with metrics := graph.metrics.alter id (fun metrics => some (f (metrics.getD {}))) }
  else graph

end Graph

end Traceability
