import Traceability.Config.Basic
import Traceability.Config.Document

/-! Configuration files.
A record is an object. Unknown keys are passed over, known ones may not be repeated, and every
field may be left out unless its record has no default. Where a text is wanted, a number, a
truth value or null stands for the text that it is written as. An empty document is the default
configuration.
-/

namespace Traceability

namespace ConfigFile

/-- The text of a scalar. -/
def text? : Json → Option String
  | .string text => text
  | .number digits => some digits
  | .bool value => some (if value then "true" else "false")
  | .null => some "null"
  | _ => none

def bool? : Json → Option Bool
  | .bool value => some value
  | _ => none

/-- A whole number below a limit, written with digits alone. -/
def nat? (limit : Nat) : Json → Option Nat
  | .number digits =>
      if digits.toList.all Char.isDigit then
        let n := Nat.ofDigitChars 10 digits.toList 0
        if n < limit then some n else none
      else none
  | _ => none

def list? (item? : Json → Option α) : Json → Option (List α)
  | .array items => items.mapM item?
  | _ => none

/-- The fields of a record that are present, by name. -/
def fields? (names : List String) : Json → Option (List (String × Json))
  | .object members =>
      let known := members.filterMap (fun (key, value) =>
        key.bind (fun key => if names.contains key then some (key, value) else none))
      if (known.map Prod.fst).Nodup then some known else none
  | _ => none

/-- A field that must be present. -/
def required (fields : List (String × Json)) (name : String) (read? : Json → Option α)
    : Option α :=
  (fields.lookup name).bind read?

/-- A field that may be left out. -/
def optional (fields : List (String × Json)) (name : String) (read? : Json → Option α)
    (default : α)
    : Option α :=
  match fields.lookup name with
  | some value => read? value
  | none => some default

def level? (value : Json) : Option LevelSpec := do
  let fields ← fields? ["name", "code", "rank"] value
  return {
    name := ← required fields "name" text?
    code := ← required fields "code" text?
    rank := ← required fields "rank" (nat? UInt32.size) }

/-- The table of permitted parents. Of two equal keys the later one counts. -/
def parents? : Json → Option (Option (Std.ExtTreeMap String (List String)))
  | .null => some none
  | .object members => do
      let entries ← members.mapM (fun (key, value) => do
        return (← key, ← list? text? value))
      return some (Std.ExtTreeMap.ofList entries)
  | _ => none

def hierarchy? (value : Json) : Option Hierarchy := do
  let fields ← fields? ["allow_same_level", "allowed_parents"] value
  let default : Hierarchy := {}
  return {
    allowSameLevel := ← optional fields "allow_same_level" bool? default.allowSameLevel
    allowedParents := ← optional fields "allowed_parents" parents? default.allowedParents }

/-- The keys of a configuration. -/
def keys : List String :=
  ["prefix", "journey_prefix", "levels", "id_digits", "zero_padded", "hash_length",
    "implements_keyword", "validates_keyword", "statuses", "hierarchy", "test_name_references"]

def config? (value : Json) : Option Config := do
  let fields ← fields? keys value
  let default : Config := {}
  let size? := nat? UInt64.size
  return {
    idPrefix := ← optional fields "prefix" text? default.idPrefix
    journeyPrefix := ← optional fields "journey_prefix" text? default.journeyPrefix
    levels := ← optional fields "levels" (list? level?) default.levels
    idDigits := ← optional fields "id_digits" size? default.idDigits
    zeroPadded := ← optional fields "zero_padded" bool? default.zeroPadded
    hashLength := ← optional fields "hash_length" size? default.hashLength
    implementsKeyword := ← optional fields "implements_keyword" text? default.implementsKeyword
    validatesKeyword := ← optional fields "validates_keyword" text? default.validatesKeyword
    statuses := ← optional fields "statuses" (list? text?) default.statuses
    hierarchy := ← optional fields "hierarchy" hierarchy? default.hierarchy
    testNameReferences :=
      ← optional fields "test_name_references" bool? default.testNameReferences }

end ConfigFile

/-- The configuration that the text of a file writes. -/
def Config.ofText? (text : String) : Option Config := do
  match ← ConfigDocument.ofText? text with
  | none => return {}
  | some value => ConfigFile.config? value

end Traceability
