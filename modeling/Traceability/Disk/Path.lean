import Traceability.Text.Search

/-! Paths as text.
A path is a sequence of components. Repeated separators and mentions of the current directory
make no difference, except for such a mention at the very start.
-/

namespace Traceability.Path

inductive Component where
  | root
  | current
  | parent
  | name (s : String)
deriving Repr, DecidableEq

/-- The position of the sorts of component. -/
def Component.rank : Component → Nat
  | .root => 0
  | .current => 1
  | .parent => 2
  | .name _ => 3

/-- The text of a name; the other components have none. -/
def Component.text : Component → String
  | .name s => s
  | _ => ""

/-- The root, the current directory, the parent directory, then names in the order of texts. -/
instance : Ord Component where
  compare := compareLex (compareOn Component.rank) (compareOn Component.text)

/-- The segments between separators. -/
def segments (path : String) : List String :=
  (Text.splitWhere (· == '/') path.toList).map String.ofList

/-- The component of a segment that is not the first. -/
def component? (segment : String) : Option Component :=
  if segment = "" ∨ segment = "." then none
  else if segment = ".." then some .parent
  else some (.name segment)

def components (path : String) : List Component :=
  match segments path with
  | [] => []
  | [""] => []
  | "" :: rest => .root :: rest.filterMap component?
  | "." :: rest => .current :: rest.filterMap component?
  | first :: rest => (first :: rest).filterMap component?

/-- Paths compare component by component, so that what is below a directory stays together. -/
def order (a b : String) : Ordering :=
  compare (components a) (components b)

/-- A path without mentions of the current directory at its start. -/
def dropCurrent : List Char → List Char
  | '.' :: '/' :: rest => dropCurrent rest
  | '/' :: rest => dropCurrent rest
  | s => s

/-- A path relative to the current directory, if it starts by naming that directory. -/
def relative (path : String) : String :=
  match path.toList with
  | '.' :: '/' :: rest => String.ofList (dropCurrent rest)
  | _ => path

/-- The path of a name inside a directory. -/
def inside (directory name : String) : String :=
  if directory.toList.getLast? = some '/' then directory ++ name else directory ++ "/" ++ name

/-- What follows the last full stop of a name, unless nothing precedes it. -/
def extension? (name : String) : Option String :=
  match Text.cutLast? ['.'] name.toList with
  | some (_ :: _, rest) => some (String.ofList rest)
  | _ => none

end Traceability.Path
