import Traceability.Scheme.Identifier

/-! Function definitions and the identifiers in their names.
A definition is a line that opens with a function keyword of one of several languages. In the
name of a test function an identifier is written with underscores.
-/

namespace Traceability.Definition

open Text

/-- The text after one or more blanks. -/
def afterBlanks? : List Char → Option (List Char)
  | [] => none
  | c :: s => if isBlank c then some (trimStart s) else none

/-- The text after a parenthesis that opens the text, up to the next closing one. -/
def afterParens? (s : List Char) : Option (List Char) := do
  let s ← strip? ['('] s
  strip? [')'] (s.dropWhile (· != ')'))

/-- The text after a visibility, which is optional. -/
def afterVisibility? (s : List Char) : Option (List Char) :=
  match strip? "pub".toList s with
  | none => some s
  | some rest => afterBlanks? ((afterParens? rest).getD rest)

/-- The text after the word that makes a function asynchronous, which is optional. -/
def afterAsync? (s : List Char) : Option (List Char) :=
  match strip? "async".toList s with
  | none => some s
  | some rest => afterBlanks? rest

def keywords : List (List Char) :=
  ["fn", "def", "function", "func"].map String.toList

def isNameStart (c : Char) : Bool :=
  c.isAlpha || c == '_'

def isNamePart (c : Char) : Bool :=
  c.isAlphanum || c == '_'

/-- The name of the function that a line defines. -/
def name? (text : String) : Option (List Char) := do
  let s ← afterVisibility? (trimStart text.toList)
  let s ← afterAsync? s
  let s ← keywords.findSome? (fun keyword => (strip? keyword s).bind afterBlanks?)
  match s with
  | [] => none
  | c :: rest => if isNameStart c then some (c :: rest.takeWhile isNamePart) else none

/-- The letter after an underscore that ends the name or that a further underscore follows,
and the rest of the name behind it. -/
def letterSuffix : List Char → Option Char × List Char
  | ['_', letter] => if letter.isUpper then (some letter, []) else (none, ['_', letter])
  | '_' :: letter :: '_' :: rest =>
      if letter.isUpper then (some letter, rest) else (none, '_' :: letter :: '_' :: rest)
  | s => (none, s)

/-- The identifier at the start of a text that writes it with underscores, and the rest. -/
def takeId? (scheme : Scheme) (s : List Char) : Option (List Char × List Char) :=
  (scheme.takePrefixed? '_' s).map (fun (code, digits, rest) =>
    let (letter, rest) := letterSuffix rest
    (scheme.idText code digits ++ (match letter with
      | none => []
      | some letter => ['-', letter]), rest))

/-- The identifiers in a text that has at most this many characters. -/
def idsWithin (scheme : Scheme) : Nat → List Char → List (List Char)
  | 0, _ => []
  | _, [] => []
  | bound + 1, c :: s =>
      match takeId? scheme (c :: s) with
      | some (id, rest) => id :: idsWithin scheme bound rest
      | none => idsWithin scheme bound s

/-- The identifiers in a function name, from left to right and without overlap. -/
def ids (scheme : Scheme) (name : List Char) : List (List Char) :=
  idsWithin scheme name.length name

/-- Whether a name is that of a test. -/
def namesTest (name : List Char) : Bool :=
  contains "test".toList (name.map Char.toLower)

end Traceability.Definition
