import Traceability.Json.Basic

/-! Reading JSON.
The grammar of values is fixed; how strings and keys are written is a parameter, so that other
documents made of JSON values share it. JSON texts have the strict rules: blanks are space, tab,
line feed and carriage return, a string holds no bare control character, and nothing but blanks
follows the value.
-/

namespace Traceability.Json

def isJsonBlank (c : Char) : Bool :=
  c == ' ' || c == '\t' || c == '\n' || c == '\r'

def skipBlanks (s : List Char) : List Char :=
  s.dropWhile isJsonBlank

/-- A piece of a string: a character as it stands, or the code unit of an escape. -/
inductive StringPiece where
  | char (c : Char)
  | unit (n : Nat)

namespace StringPiece

def isHighHalf (n : Nat) : Bool :=
  0xD800 ≤ n && n ≤ 0xDBFF

def isLowHalf (n : Nat) : Bool :=
  0xDC00 ≤ n && n ≤ 0xDFFF

/-- The text of the pieces, where each high half of a pair is followed by a low half. -/
def text? : List StringPiece → Option (List Char)
  | [] => some []
  | .char c :: rest => (text? rest).map (c :: ·)
  | .unit high :: rest =>
      if isHighHalf high then
        match rest with
        | .unit low :: rest =>
            if isLowHalf low then
              (text? rest).map
                (Char.ofNat (0x10000 + (high - 0xD800) * 0x400 + (low - 0xDC00)) :: ·)
            else none
        | _ => none
      else if isLowHalf high then none
      else (text? rest).map (Char.ofNat high :: ·)

end StringPiece

def hexDigit? (c : Char) : Option Nat :=
  if c.isDigit then some (c.toNat - '0'.toNat)
  else if 'a' ≤ c ∧ c ≤ 'f' then some (c.toNat - 'a'.toNat + 10)
  else if 'A' ≤ c ∧ c ≤ 'F' then some (c.toNat - 'A'.toNat + 10)
  else none

/-- The character that a one-letter escape stands for. -/
def escaped? (c : Char) : Option Char :=
  match c with
  | '"' => some '"'
  | '\\' => some '\\'
  | '/' => some '/'
  | 'b' => some '\x08'
  | 'f' => some '\x0c'
  | 'n' => some '\n'
  | 'r' => some '\r'
  | 't' => some '\t'
  | _ => none

/-- The pieces of a string whose opening quote is behind, and the text after its closing quote.
Only some characters may stand in it without an escape. -/
def stringPieces? (isBare : Char → Bool) : List Char → Option (List StringPiece × List Char)
  | [] => none
  | '"' :: rest => some ([], rest)
  | '\\' :: 'u' :: a :: b :: c :: d :: rest => do
      let n := (((← hexDigit? a) * 16 + (← hexDigit? b)) * 16 + (← hexDigit? c)) * 16
        + (← hexDigit? d)
      let (pieces, rest) ← stringPieces? isBare rest
      return (.unit n :: pieces, rest)
  | '\\' :: c :: rest => do
      let c ← escaped? c
      let (pieces, rest) ← stringPieces? isBare rest
      return (.unit c.toNat :: pieces, rest)
  | c :: rest =>
      if c ≠ '\\' ∧ isBare c then
        (stringPieces? isBare rest).map (fun (pieces, rest) => (.char c :: pieces, rest))
      else none

/-- How strings and keys are written. Both readers start behind the opening quote. -/
structure Lexis where
  /-- A string, and the text after its closing quote. -/
  string? : List Char → Option (Option String × List Char)
  /-- A key, and the text after its colon. -/
  key? : List Char → Option (Option String × List Char)

/-- A string that holds no bare control character. -/
def string? (s : List Char) : Option (Option String × List Char) :=
  (stringPieces? (fun c => 0x20 ≤ c.toNat) s).map (fun (pieces, rest) =>
    ((StringPiece.text? pieces).map String.ofList, rest))

/-- A string, read in the given way, that a colon follows. -/
def keyBy? (string? : List Char → Option (Option String × List Char)) (s : List Char)
    : Option (Option String × List Char) := do
  let (key, rest) ← string? s
  match skipBlanks rest with
  | ':' :: rest => return (key, rest)
  | _ => none

/-- The rules of JSON texts. -/
def Lexis.strict : Lexis where
  string? := Json.string?
  key? := keyBy? Json.string?

/-- One or more digits at the start of a text. -/
def digits? (s : List Char) : Option (List Char × List Char) :=
  match s.takeWhile Char.isDigit with
  | [] => none
  | digits => some (digits, s.dropWhile Char.isDigit)

/-- A whole number without leading zeros. -/
def wholePart? : List Char → Option (List Char × List Char)
  | '0' :: rest => some (['0'], rest)
  | s => digits? s

/-- The digits after a decimal point, which are optional. -/
def fractionPart? : List Char → Option (List Char × List Char)
  | '.' :: rest => (digits? rest).map (fun (digits, rest) => ('.' :: digits, rest))
  | s => some ([], s)

/-- The exponent, which is optional. -/
def exponentPart? : List Char → Option (List Char × List Char)
  | c :: rest =>
      if c = 'e' ∨ c = 'E' then
        match rest with
        | '+' :: rest => (digits? rest).map (fun (digits, rest) => (c :: '+' :: digits, rest))
        | '-' :: rest => (digits? rest).map (fun (digits, rest) => (c :: '-' :: digits, rest))
        | rest => (digits? rest).map (fun (digits, rest) => (c :: digits, rest))
      else some ([], c :: rest)
  | [] => some ([], [])

/-- A number at the start of a text. -/
def number? (s : List Char) : Option (List Char × List Char) := do
  let (sign, s) := match s with
    | '-' :: rest => (['-'], rest)
    | s => ([], s)
  let (whole, s) ← wholePart? s
  let (fraction, s) ← fractionPart? s
  let (exponent, s) ← exponentPart? s
  return (sign ++ whole ++ fraction ++ exponent, s)

mutual

/-- The value at the start of a text, and the rest. The bound limits the number of nested
steps; twice the length of the text is enough. -/
def value? (lexis : Lexis) : Nat → List Char → Option (Json × List Char)
  | 0, _ => none
  | bound + 1, s =>
      match skipBlanks s with
      | 'n' :: 'u' :: 'l' :: 'l' :: rest => some (.null, rest)
      | 't' :: 'r' :: 'u' :: 'e' :: rest => some (.bool true, rest)
      | 'f' :: 'a' :: 'l' :: 's' :: 'e' :: rest => some (.bool false, rest)
      | '"' :: rest => (lexis.string? rest).map (fun (text, rest) => (.string text, rest))
      | '[' :: rest =>
          match skipBlanks rest with
          | ']' :: rest => some (.array [], rest)
          | rest => (items? lexis bound rest).map (fun (items, rest) => (.array items, rest))
      | '\x7b' :: rest =>
          match skipBlanks rest with
          | '\x7d' :: rest => some (.object [], rest)
          | rest =>
              (members? lexis bound rest).map (fun (members, rest) => (.object members, rest))
      | s => (number? s).map (fun (digits, rest) => (.number (String.ofList digits), rest))

/-- The items of an array up to its closing bracket. -/
def items? (lexis : Lexis) : Nat → List Char → Option (List Json × List Char)
  | 0, _ => none
  | bound + 1, s => do
      let (item, rest) ← value? lexis bound s
      match skipBlanks rest with
      | ']' :: rest => return ([item], rest)
      | ',' :: rest =>
          let (items, rest) ← items? lexis bound rest
          return (item :: items, rest)
      | _ => none

/-- The members of an object up to its closing brace. -/
def members? (lexis : Lexis)
    : Nat → List Char → Option (List (Option String × Json) × List Char)
  | 0, _ => none
  | bound + 1, s => do
      match skipBlanks s with
      | '"' :: rest =>
          let (key, rest) ← lexis.key? rest
          let (value, rest) ← value? lexis bound rest
          match skipBlanks rest with
          | '\x7d' :: rest => return ([(key, value)], rest)
          | ',' :: rest =>
              let (members, rest) ← members? lexis bound rest
              return ((key, value) :: members, rest)
          | _ => none
      | _ => none

end

/-- The value at the start of a text of any length, and the rest. -/
def valueOf? (lexis : Lexis) (s : List Char) : Option (Json × List Char) :=
  value? lexis (2 * s.length + 2) s

/-- The value that a text writes, blanks around it aside. -/
def ofText? (text : String) : Option Json := do
  let (value, rest) ← valueOf? .strict text.toList
  if (skipBlanks rest).isEmpty then return value else none

end Traceability.Json
