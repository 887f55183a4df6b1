import Traceability.Config.Basic
import Traceability.Config.Error
import Traceability.Scheme.Basic

/-! Compilation of a configuration.
The checks run in a fixed order and the first that fails decides the error: prefixes, then
sizes, then keywords, then levels in the order written, then the table of permitted parents
in the order of its keys.
-/

namespace Traceability

open Text

namespace Config

/-- Prefixes are a letter and then letters and digits, all ASCII. -/
def isValidPrefix (text : String) : Bool :=
  match text.toList with
  | [] => false
  | c :: cs => c.isAlpha && cs.all Char.isAlphanum

def checkPrefixes (config : Config) : Except ConfigError Unit := do
  unless isValidPrefix config.idPrefix do throw (.invalidPrefix config.idPrefix)
  unless isValidPrefix config.journeyPrefix do throw (.invalidPrefix config.journeyPrefix)
  if sameIgnoringCase config.idPrefix config.journeyPrefix then
    throw (.conflictingPrefix config.idPrefix)

def checkSizes (config : Config) : Except ConfigError Unit := do
  if config.levels = [] then throw .noLevels
  if config.idDigits = 0 then throw .zeroDigits
  unless 4 ≤ config.hashLength ∧ config.hashLength ≤ 64 do throw (.hashLength config.hashLength)

def checkKeywords (config : Config) : Except ConfigError Unit := do
  if trim config.implementsKeyword.toList = [] then throw (.emptyKeyword .implementing)
  if trim config.validatesKeyword.toList = [] then throw (.emptyKeyword .validating)

/-- The level of a specification that differs from all levels before it in name, code and rank. -/
def compileLevel (earlier : List Level) (spec : LevelSpec) : Except ConfigError Level :=
  match spec.code.toList with
  | [code] =>
      if !code.isLower then .error (.invalidLevelCode spec.name spec.code)
      else if earlier.any (fun level => sameIgnoringCase level.name spec.name) then
        .error (.duplicateLevel .name spec.name)
      else if earlier.any (fun level => level.code == code) then
        .error (.duplicateLevel .code spec.code)
      else if earlier.any (fun level => level.rank == spec.rank) then
        .error (.duplicateLevel .rank (toString spec.rank))
      else .ok ⟨spec.name, code, spec.rank⟩
  | _ => .error (.invalidLevelCode spec.name spec.code)

/-- The levels of the specifications, after those already compiled. -/
def compileLevels (earlier : List Level) : List LevelSpec → Except ConfigError (List Level)
  | [] => .ok earlier
  | spec :: specs => do
      let level ← compileLevel earlier spec
      compileLevels (earlier ++ [level]) specs

/-- Puts a level after those of lower or equal rank. -/
def insertByRank (level : Level) : List Level → List Level
  | [] => [level]
  | other :: rest =>
      if other.rank ≤ level.rank then other :: insertByRank level rest
      else level :: other :: rest

/-- The levels ascending by rank. -/
def sortByRank (levels : List Level) : List Level :=
  levels.foldl (fun sorted level => insertByRank level sorted) []

/-- The configured spelling of a level name. -/
def canonicalName (levels : List Level) (name : String) : Except ConfigError String :=
  match levels.find? (fun level => sameIgnoringCase level.name name) with
  | some level => .ok level.name
  | none => .error (.unknownLevel name)

/-- The table of permitted parents by configured names. Of two keys that name one level, the
later one decides. -/
def compileParents (levels : List Level)
    : List (String × List String) → Std.ExtTreeMap String (List String)
      → Except ConfigError (Std.ExtTreeMap String (List String))
  | [], table => .ok table
  | (child, parents) :: rest, table => do
      let child ← canonicalName levels child
      let parents ← parents.mapM (canonicalName levels)
      compileParents levels rest (table.insert child parents)

/-- The scheme of a configuration that passes every check. How many padded digits an identifier
pattern may ask for is up to the pattern library, so this limit is a parameter. -/
def compileWithin (config : Config) (limit : Nat) : Except ConfigError Scheme := do
  config.checkPrefixes
  config.checkSizes
  config.checkKeywords
  let levels := sortByRank (← compileLevels [] config.levels)
  let allowedParents ←
    match config.hierarchy.allowedParents with
    | none => pure none
    | some table => some <$> compileParents levels table.toList ∅
  if config.zeroPadded ∧ limit < config.idDigits then
    throw (.tooManyDigits config.idDigits)
  return {
    idPrefix := config.idPrefix
    journeyPrefix := config.journeyPrefix
    levels
    idDigits := config.idDigits
    zeroPadded := config.zeroPadded
    hashLength := config.hashLength
    implementsKeyword := String.ofList (trim config.implementsKeyword.toList)
    validatesKeyword := String.ofList (trim config.validatesKeyword.toList)
    statuses := config.statuses
    allowSameLevel := config.hierarchy.allowSameLevel
    allowedParents
    testNameReferences := config.testNameReferences
  }

/-- The limit with which programs run. No result about compiled configurations depends on it. -/
def maxPaddedDigits : Nat := 2500

def compile (config : Config) : Except ConfigError Scheme :=
  config.compileWithin maxPaddedDigits

end Config

end Traceability
