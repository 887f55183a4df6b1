/-! JSON values.
Numbers keep their text, so that no digit is lost. A string or key is `none` where an escape
names half of a surrogate pair alone: such a string is well formed but has no text.
-/

namespace Traceability

inductive Json where
  | null
  | bool (value : Bool)
  | number (text : String)
  | string (text? : Option String)
  | array (items : List Json)
  | object (members : List (Option String × Json))
deriving Repr, Inhabited

namespace Json

def text (s : String) : Json :=
  .string (some s)

def ofNat (n : Nat) : Json :=
  .number (toString n)

def ofInt (n : Int) : Json :=
  .number (toString n)

def texts (items : List String) : Json :=
  .array (items.map text)

def record (members : List (String × Json)) : Json :=
  .object (members.map (fun (key, value) => (some key, value)))

end Json

end Traceability
