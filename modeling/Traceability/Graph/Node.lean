import Std.Data.ExtTreeMap
import Traceability.Graph.Location

/-! Nodes of the traceability graph. -/

namespace Traceability

inductive NodeKind where
  | requirement
  | assertion
  | code
  | test
  | journey
deriving Repr, DecidableEq

def NodeKind.word : NodeKind → String
  | .requirement => "requirement"
  | .assertion => "assertion"
  | .code => "code"
  | .test => "test"
  | .journey => "journey"

inductive FieldValue where
  | text (s : String)
  | int (n : Int)
  | flag (b : Bool)
  | list (items : List String)
deriving Repr, DecidableEq

/-- The attributes of a node by key. -/
abbrev Fields := Std.ExtTreeMap String FieldValue

/-! The keys of the attributes that rules look at. -/

namespace FieldKey

def title := "title"
def level := "level"
def status := "status"
def body := "body"
def hash := "hash"
def hasMetadata := "has_metadata"
def implementsTargets := "implements"
def refinesTargets := "refines"
def addressesTargets := "addresses"
/-- The letters of the assertions of a requirement, in the order written. -/
def assertions := "assertions"
def endMarker := "end_marker"
def endLine := "end_line"
/-- The requirement that an assertion belongs to. -/
def requirement := "requirement"
def label := "label"
def text := "text"
def targets := "targets"
def actor := "actor"
def goal := "goal"
def steps := "steps"

end FieldKey

/-- A node, with the positions of the edges that leave it and of those that arrive. -/
structure Node where
  id : String
  kind : NodeKind
  label : String
  fields : Fields := ∅
  source : Location
  outgoing : Array Nat := #[]
  incoming : Array Nat := #[]
deriving DecidableEq

namespace Node

def text? (node : Node) (key : String) : Option String :=
  match node.fields[key]? with
  | some (.text s) => some s
  | _ => none

def list (node : Node) (key : String) : List String :=
  match node.fields[key]? with
  | some (.list items) => items
  | _ => []

def flag (node : Node) (key : String) : Bool :=
  match node.fields[key]? with
  | some (.flag b) => b
  | _ => false

def int? (node : Node) (key : String) : Option Int :=
  match node.fields[key]? with
  | some (.int n) => some n
  | _ => none

/-- Adds an attribute. -/
def withField (node : Node) (key : String) (value : FieldValue) : Node :=
  { node with fields := node.fields.insert key value }

/-- Adds a text attribute if there is a text. -/
def withText (node : Node) (key : String) (text : Option String) : Node :=
  match text with
  | some s => node.withField key (.text s)
  | none => node

end Node

/-- The identifier of the assertion of a requirement that has this letter. -/
def assertionId (requirement letter : String) : String :=
  requirement ++ "-" ++ letter

end Traceability
