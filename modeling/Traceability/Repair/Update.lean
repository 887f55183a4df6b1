import Traceability.Digest.Hash
import Traceability.Graph.Basic

/-! Planned changes of stored hashes. -/

namespace Traceability

/-- A change of the hash on a closing marker. The anchor is the line of the marker as it was
read, and `stored` is the hash on it. -/
structure HashUpdate where
  path : String
  id : String
  line : Nat
  anchor : String
  stored : Option String
  computed : String
deriving Repr, DecidableEq

namespace HashUpdate

/-- A whole number as an unsigned word of sixty-four bits: a negative one counts down from the
largest word. -/
def unsignedWord : Int → Nat
  | .ofNat n => n
  | .negSucc n => UInt64.size - 1 - n

/-- The change that a requirement needs, if any. -/
def ofNode? (length : Nat) (node : Node) : Option HashUpdate :=
  let body := (node.text? FieldKey.body).getD ""
  let stored := node.text? FieldKey.hash
  if BodyHash.verify body stored length = .valid then none
  else
    some {
      path := node.source.path
      id := node.id
      line := ((node.int? FieldKey.endLine).map unsignedWord).getD node.source.endLine
      anchor := (node.text? FieldKey.endMarker).getD ""
      stored
      computed := BodyHash.compute body length }

/-- The changes that bring the stored hash of every requirement up to date. -/
def plan (graph : Graph) (length : Nat) : List HashUpdate :=
  graph.requirements.filterMap (ofNode? length)

end HashUpdate

end Traceability
