import Traceability.Line.Basic

/-! Metadata fields.
A metadata line holds fields separated by bars, each a key between two pairs of asterisks, a
colon and a value. Segments of another shape are passed over.
-/

namespace Traceability

open Text

/-- A field: its key in lower case, and its value. -/
structure Field where
  key : String
  value : String
deriving Repr, DecidableEq

namespace Field

/-- The field that a segment writes. -/
def ofSegment? (segment : List Char) : Option Field := do
  let rest ← strip? ['*', '*'] (trim segment)
  let (key, rest) ← cutFirst? ['*', '*'] rest
  let value ← strip? [':'] (trimStart rest)
  return ⟨String.ofList ((trim key).map Char.toLower), String.ofList (trim value)⟩

/-- The fields of a line, in order. -/
def ofLine (text : String) : List Field :=
  (splitWhere (· == '|') text.toList).filterMap ofSegment?

/-- The value of the last field with this key. -/
def value? (fields : List Field) (key : String) : Option String :=
  ((fields.filter (fun field => field.key == key)).getLast?).map Field.value

end Field

/-- The targets of a list separated by commas. A hyphen stands for none. -/
def targetList (value : String) : List String :=
  (((splitWhere (· == ',') value.toList).map trim).filter
    (fun target => target ≠ [] && target ≠ ['-'])).map String.ofList

end Traceability
