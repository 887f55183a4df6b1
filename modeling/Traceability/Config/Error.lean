/-! The reasons for which a configuration is refused, and their wording. -/

namespace Traceability

/-- The property in which two levels must differ. -/
inductive LevelField where
  | name
  | code
  | rank
deriving Repr, DecidableEq

def LevelField.word : LevelField → String
  | .name => "name"
  | .code => "code"
  | .rank => "rank"

/-- The two kinds of reference marker that a configuration names. -/
inductive MarkerKind where
  | implementing
  | validating
deriving Repr, DecidableEq

def MarkerKind.word : MarkerKind → String
  | .implementing => "implements"
  | .validating => "validates"

inductive ConfigError where
  | invalidPrefix (text : String)
  | conflictingPrefix (text : String)
  | invalidLevelCode (level code : String)
  | duplicateLevel (field : LevelField) (value : String)
  | noLevels
  | unknownLevel (name : String)
  | zeroDigits
  | hashLength (length : Nat)
  | emptyKeyword (marker : MarkerKind)
  /-- Identifiers are padded to more digits than a pattern may have. -/
  | tooManyDigits (digits : Nat)
deriving Repr, DecidableEq

def ConfigError.message : ConfigError → String
  | .invalidPrefix text =>
      s!"Invalid prefix '{text}': must be non-empty ASCII alphanumeric starting with a letter"
  | .conflictingPrefix text => s!"Prefix '{text}' conflicts with the journey prefix"
  | .invalidLevelCode level code =>
      s!"Invalid level code '{code}' for level {level}: must be one ASCII lowercase letter"
  | .duplicateLevel field value => s!"Duplicate level {field.word}: {value}"
  | .noLevels => "At least one level must be configured"
  | .unknownLevel name => s!"Unknown level referenced in hierarchy configuration: {name}"
  | .zeroDigits => "ID digit width must be at least 1"
  | .hashLength length => s!"Hash length {length} out of range (4..=64)"
  | .emptyKeyword marker => s!"Marker keyword for {marker.word} must not be empty"
  | .tooManyDigits digits =>
      s!"Pattern compilation failed: identifiers of {digits} digits are too long"

end Traceability
