/-! Places in files. -/

namespace Traceability

/-- A run of lines of a file. -/
structure Location where
  path : String
  startLine : Nat
  endLine : Nat
deriving Repr, DecidableEq

namespace Location

def ofLine (path : String) (line : Nat) : Location :=
  ⟨path, line, line⟩

/-- The path and the lines, as findings quote them. -/
def describe (location : Location) : String :=
  let lines :=
    if location.startLine = location.endLine then toString location.startLine
    else toString location.startLine ++ "-" ++ toString location.endLine
  location.path ++ ":" ++ lines

/-- By path, then by first line, then by last line. -/
instance : Ord Location where
  compare := compareLex (compareOn Location.path)
    (compareLex (compareOn Location.startLine) (compareOn Location.endLine))

end Location

end Traceability
