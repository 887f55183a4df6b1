import Traceability.Scheme.Basic
import Traceability.Text.DecimalDigit
import Traceability.Text.Search

/-! Requirement identifiers.
An identifier is the prefix, a hyphen, a level code and digits; a reference may add letters,
each after a hyphen. Text is scanned with the digits of every script, as the pattern of an
identifier has them, but only ASCII digits make a number.
-/

namespace Traceability

open Text

/-- A requirement identifier taken apart, with the assertion letters in the order written. -/
structure Identifier where
  levelCode : Char
  number : Nat
  letters : List Char
deriving Repr, DecidableEq

namespace Identifier

/-- The largest number that an identifier may carry. -/
def maxNumber : Nat := UInt64.size - 1

/-- The number that ASCII digits write, unless it is too large. -/
def number? (digits : List Char) : Option Nat :=
  let number := Nat.ofDigitChars 10 digits 0
  if digits ≠ [] ∧ digits.all Char.isDigit ∧ number ≤ maxNumber then some number else none

/-- The capital letters of a text that is a sequence of hyphens each with one letter. -/
def letters? : List Char → Option (List Char)
  | [] => some []
  | '-' :: c :: rest => if c.isUpper then (letters? rest).map (c :: ·) else none
  | _ => none

end Identifier

namespace Scheme

/-- The digits at the start of a text and the rest: exactly the configured number of them when
numbers are padded, otherwise as many as there are and at least one. -/
def takeDigits? (scheme : Scheme) (s : List Char) : Option (List Char × List Char) :=
  if scheme.zeroPadded then
    let digits := s.take scheme.idDigits
    if digits.length = scheme.idDigits ∧ digits.all isDecimalDigit then
      some (digits, s.drop scheme.idDigits)
    else none
  else
    match s.takeWhile isDecimalDigit with
    | [] => none
    | digits => some (digits, s.dropWhile isDecimalDigit)

/-- The level code and the digits at the start of a text, and the rest. -/
def takeCode? (scheme : Scheme) : List Char → Option (Char × List Char × List Char)
  | [] => none
  | code :: s =>
      if scheme.levelCodes.contains code then
        (scheme.takeDigits? s).map (fun (digits, rest) => (code, digits, rest))
      else none

/-- The level code and the digits after the prefix and the separator, and the rest. -/
def takePrefixed? (scheme : Scheme) (separator : Char) (s : List Char)
    : Option (Char × List Char × List Char) :=
  (strip? (scheme.idPrefix.toList ++ [separator]) s).bind scheme.takeCode?

/-- The identifier of given parts as text. -/
def idText (scheme : Scheme) (code : Char) (digits : List Char) : List Char :=
  scheme.idPrefix.toList ++ '-' :: code :: digits

/-- The requirement identifier at the start of a text, and the rest. -/
def takeId? (scheme : Scheme) (s : List Char) : Option (List Char × List Char) :=
  (scheme.takePrefixed? '-' s).map (fun (code, digits, rest) => (scheme.idText code digits, rest))

/-- The journey identifier at the start of a text, and the rest. -/
def takeJourneyId? (scheme : Scheme) (s : List Char) : Option (List Char × List Char) :=
  match strip? (scheme.journeyPrefix.toList ++ ['-']) s with
  | none => none
  | some s =>
      let name := s.takeWhile Char.isAlphanum
      match name, s.dropWhile Char.isAlphanum with
      | _ :: _, '-' :: s =>
          match s.takeWhile isDecimalDigit with
          | [] => none
          | digits =>
              some (scheme.journeyPrefix.toList ++ '-' :: name ++ '-' :: digits,
                s.dropWhile isDecimalDigit)
      | _, _ => none

/-- The parts of an identifier, or nothing if the text is none. -/
def parseId? (scheme : Scheme) (id : String) : Option Identifier := do
  let (levelCode, digits, rest) ← scheme.takePrefixed? '-' id.toList
  let letters ← Identifier.letters? rest
  let number ← Identifier.number? digits
  return { levelCode, number, letters }

/-- The digits of a number as identifiers write them. -/
def digitsOf (scheme : Scheme) (number : Nat) : List Char :=
  let digits := Nat.toDigits 10 number
  if scheme.zeroPadded then digits.leftpad scheme.idDigits '0' else digits

/-- The identifier with these parts. -/
def formatId (scheme : Scheme) (code : Char) (number : Nat) (letter : Option Char) : String :=
  let letters := match letter with
    | none => []
    | some letter => ['-', letter]
  String.ofList (scheme.idText code (scheme.digitsOf number) ++ letters)

end Scheme

end Traceability
