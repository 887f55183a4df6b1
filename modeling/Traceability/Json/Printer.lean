import Traceability.Json.Basic

/-! Printing JSON, one item or member to a line.
Each level is indented by two blanks. Quotes, backslashes and control characters are escaped;
every other character is written as it is.
-/

namespace Traceability.Json

/-- The two digits of a small number in base 16. -/
def hexPair (n : Nat) : String :=
  String.ofList [Nat.digitChar (n / 16), Nat.digitChar (n % 16)]

/-- A character inside a quoted string. -/
def quoteChar (c : Char) : String :=
  match c with
  | '"' => "\\\""
  | '\\' => "\\\\"
  | '\x08' => "\\b"
  | '\x0c' => "\\f"
  | '\n' => "\\n"
  | '\r' => "\\r"
  | '\t' => "\\t"
  | c => if c.toNat < 0x20 then "\\u00" ++ hexPair c.toNat else c.toString

def quote (s : String) : String :=
  "\"" ++ String.join (s.toList.map quoteChar) ++ "\""

/-- A line break and the indentation of a level. -/
def newLine (level : Nat) : String :=
  "\n" ++ String.ofList (List.replicate (2 * level) ' ')

mutual

/-- A value that starts on a line of the given level. -/
def render (level : Nat) : Json → String
  | .null => "null"
  | .bool value => if value then "true" else "false"
  | .number text => text
  | .string text => quote (text.getD "")
  | .array [] => "[]"
  | .array (item :: items) =>
      "[" ++ newLine (level + 1) ++ render (level + 1) item ++ renderItems (level + 1) items
        ++ newLine level ++ "]"
  | .object [] => "\x7b\x7d"
  | .object ((key, value) :: members) =>
      "\x7b" ++ newLine (level + 1) ++ quote (key.getD "") ++ ": " ++ render (level + 1) value
        ++ renderMembers (level + 1) members ++ newLine level ++ "\x7d"

/-- The items after the first. -/
def renderItems (level : Nat) : List Json → String
  | [] => ""
  | item :: items => "," ++ newLine level ++ render level item ++ renderItems level items

/-- The members after the first. -/
def renderMembers (level : Nat) : List (Option String × Json) → String
  | [] => ""
  | (key, value) :: members =>
      "," ++ newLine level ++ quote (key.getD "") ++ ": " ++ render level value
        ++ renderMembers level members

end

def pretty (value : Json) : String :=
  render 0 value

end Traceability.Json
