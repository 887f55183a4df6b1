import Traceability.Text.Blank
import Traceability.Text.Caseless
import Traceability.Text.Search

/-! Reference markers in comments.
A marker is a comment sign, a keyword and a colon anywhere in a line; what follows the colon
names the targets. A marker that names nothing may be continued by comment lines that hold
nothing but targets.
-/

namespace Traceability.Marker

open Text

/-- The signs that open a comment. No two of them start the same text except `*`, which `/*`
does not. -/
def openingSigns : List (List Char) :=
  ["#", "//", "--", ";", "/*", "*", "<!--"].map String.toList

/-- The signs that open a continuation line. -/
def continuationSigns : List (List Char) :=
  ["#", "//", "--", ";", "*"].map String.toList

/-- The text after the first of the signs that a text starts with. -/
def stripSign? (signs : List (List Char)) (s : List Char) : Option (List Char) :=
  signs.findSome? (fun sign => strip? sign s)

/-- What follows the colon of a marker that stands at the start of a text. A marker goes up to
the end of the text, which must be on its line. -/
def restAt? (keyword s : List Char) : Option (List Char) := do
  let s ← stripSign? openingSigns s
  let s ← stripFolded? keyword (trimStart s)
  let rest ← strip? [':'] (trimStart s)
  if rest.contains '\n' then none else some rest

/-- What follows the colon of the first marker of a text. -/
def rest? (keyword : List Char) : List Char → Option (List Char)
  | [] => none
  | c :: s => (restAt? keyword (c :: s)).or (rest? keyword s)

/-- What follows the comment sign of a continuation line. -/
def continuation? (s : List Char) : Option (List Char) := do
  let s ← stripSign? continuationSigns (trimStart s)
  let rest := trimStart s
  if rest.contains '\n' then none else some rest

/-- The words of a target list: what commas and blanks separate, from the first to the last
ASCII letter or digit. -/
def words (s : List Char) : List (List Char) :=
  ((splitWhere (fun c => c == ',' || isBlank c) s).map
    (trimWhile (fun c => !c.isAlphanum))).filter (· ≠ [])

/-- Whether a word is a target: it starts with the identifier prefix and a hyphen. -/
def isTarget (idPrefix : String) (word : List Char) : Bool :=
  (idPrefix.toList ++ ['-']).isPrefixOf word

end Traceability.Marker
