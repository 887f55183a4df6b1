import Traceability.Rule.Basic

/-! Rules on how requirements are written: assertion letters, metadata and stored hashes. -/

namespace Traceability.Rule

open Text

namespace Sequence

/-- The letters that assertions carry, in order. -/
def alphabet : List String :=
  (List.range 26).map (fun i => (Char.ofNat ('A'.toNat + i)).toString)

example
    : alphabet
      = ["A", "B", "C", "D", "E", "F", "G", "H", "I", "J", "K", "L", "M", "N", "O", "P", "Q",
        "R", "S", "T", "U", "V", "W", "X", "Y", "Z"] := by
  decide

/-- The first position, counted from one, at which the letters depart from the expected ones,
with the letter found and the letter expected there. -/
def firstDeparture? (position : Nat) : List String → List String → Option (Nat × String × String)
  | found :: letters, wanted :: expected =>
      if found = wanted then firstDeparture? (position + 1) letters expected
      else some (position, found, wanted)
  | _, _ => none

end Sequence

/-- An error for each requirement whose assertions are not lettered in the order of the
alphabet. -/
def assertionSequence : Rule where
  name := "format.assertion_sequence"
  check context :=
    context.graph.requirements.filterMap (fun node =>
      (Sequence.firstDeparture? 1 (node.list FieldKey.assertions) Sequence.alphabet).map
        (fun (position, found, wanted) =>
          node.finding "format.assertion_sequence" .error
            (node.id ++ ": assertion " ++ toString position ++ " is labelled " ++ found
              ++ ", expected " ++ wanted)))

namespace Metadata

/-- A text attribute that holds more than blanks. -/
def filled? (node : Node) (key : String) : Option String :=
  (node.text? key).filter (fun text => trim text.toList ≠ [])

def missingField? (node : Node) (key : String) : Option Finding :=
  match filled? node key with
  | some _ => none
  | none =>
      some (node.finding "format.missing_field" .error
        (node.id ++ " metadata is missing " ++ key))

def unknownStatus? (scheme : Scheme) (node : Node) : Option Finding := do
  let status ← filled? node FieldKey.status
  if scheme.isKnownStatus status then none
  else
    return node.finding "format.unknown_status" .warning
      (node.id ++ " has unknown status '" ++ status ++ "'")

/-- A declared level that is unknown or differs from the one in the identifier. -/
def levelMismatch? (scheme : Scheme) (node : Node) : Option Finding := do
  let name ← filled? node FieldKey.level
  let encoded := (scheme.parseId? node.id).bind (fun parts =>
    scheme.levelByCode? parts.levelCode)
  let message ←
    match scheme.levelByName? name, encoded with
    | none, _ => some (node.id ++ " declares unknown level '" ++ name ++ "'")
    | some declared, some encoded =>
        if declared.code = encoded.code then none
        else
          some (node.id ++ " declares level " ++ declared.name ++ " but its ID encodes "
            ++ encoded.name)
    | some _, none => none
  return node.finding "format.level_mismatch" .error message

def findings (scheme : Scheme) (node : Node) : List Finding :=
  if node.flag FieldKey.hasMetadata then
    [missingField? node FieldKey.level, missingField? node FieldKey.status,
      unknownStatus? scheme node, levelMismatch? scheme node].filterMap id
  else
    [node.finding "format.missing_metadata" .error
      (node.id ++ " has no **Level**/**Status** metadata line")]

end Metadata

/-- Findings on the metadata line of each requirement. -/
def metadata : Rule where
  name := "format.metadata"
  check context := context.graph.requirements.flatMap (Metadata.findings context.scheme)

namespace StoredHash

def finding? (length : Nat) (node : Node) : Option Finding :=
  let body := (node.text? FieldKey.body).getD ""
  let stored := node.text? FieldKey.hash
  match BodyHash.verify body stored length with
  | .valid => none
  | .mismatch =>
      some (node.finding "hash.mismatch" .error
        (node.id ++ " content changed since its hash was updated (stored " ++ stored.getD ""
          ++ ", computed " ++ BodyHash.compute body length ++ ")"))
  | .missing =>
      some (node.finding "hash.missing" .warning (node.id ++ " has no stored hash"))

end StoredHash

/-- A finding for each requirement whose stored hash is missing or is not that of its body. -/
def storedHash : Rule where
  name := "hash"
  check context :=
    context.graph.requirements.filterMap (StoredHash.finding? context.scheme.hashLength)

end Traceability.Rule
