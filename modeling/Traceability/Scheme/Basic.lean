import Std.Data.ExtTreeMap
import Traceability.Text.Blank
import Traceability.Text.Caseless

/-! The compiled configuration: the shape of identifiers, the levels by rank, and the settings
that readers of blocks and rules look up.
-/

namespace Traceability

structure Level where
  name : String
  code : Char
  rank : Nat
deriving Repr, DecidableEq

/-- A compiled configuration. `Config.compile` is the only way to one that a run uses, and it
leaves the levels ascending by rank, with distinct names and codes. -/
structure Scheme where
  idPrefix : String
  journeyPrefix : String
  levels : List Level
  idDigits : Nat
  zeroPadded : Bool
  hashLength : Nat
  implementsKeyword : String
  validatesKeyword : String
  statuses : List String
  allowSameLevel : Bool
  /-- The permitted parents of each level that the configuration lists, by configured names. -/
  allowedParents : Option (Std.ExtTreeMap String (List String))
  testNameReferences : Bool

namespace Scheme

open Text

def levelCodes (scheme : Scheme) : List Char :=
  scheme.levels.map Level.code

def levelByCode? (scheme : Scheme) (code : Char) : Option Level :=
  scheme.levels.find? (fun level => level.code = code)

/-- The level with this name, blanks around the name and the case of ASCII letters aside. -/
def levelByName? (scheme : Scheme) (name : String) : Option Level :=
  scheme.levels.find? (fun level => sameLetters level.name.toList (trim name.toList))

def isKnownStatus (scheme : Scheme) (status : String) : Bool :=
  scheme.statuses.any (fun known => sameLetters known.toList (trim status.toList))

/-- Whether a requirement of the level `child` may declare a parent of the level `parent`. -/
def permitsParent (scheme : Scheme) (child parent : Level) : Bool :=
  match scheme.allowedParents with
  | some allowed => (allowed[child.name]?.getD []).contains parent.name
  | none => parent.rank < child.rank || (scheme.allowSameLevel && parent.rank == child.rank)

/-- The digits of an identifier as a pattern. -/
def digitsPattern (scheme : Scheme) : String :=
  if scheme.zeroPadded then "\\d\x7b" ++ toString scheme.idDigits ++ "\x7d" else "\\d+"

/-- The pattern of a requirement identifier, level codes in the order of the ranks. -/
def idPattern (scheme : Scheme) : String :=
  scheme.idPrefix ++ "-[" ++ String.ofList scheme.levelCodes ++ "]" ++ scheme.digitsPattern

/-- The pattern of a journey identifier. -/
def journeyPattern (scheme : Scheme) : String :=
  scheme.journeyPrefix ++ "-[A-Za-z0-9]+-\\d+"

end Scheme

end Traceability
