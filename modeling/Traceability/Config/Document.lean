import Traceability.Json.Reader

/-! The text of a configuration file.
It writes a JSON value for people to edit: comments may stand before and after the value, a text
without a value is an empty document, and a string may run over several lines. Every character
is printable, a key is short and stands on one line, and no escape names half of a surrogate
pair.
-/

namespace Traceability.ConfigDocument

/-- Printable characters, tabs and line breaks. -/
def isPermitted (c : Char) : Bool :=
  c == '\t' || c == '\n' || c == '\r' || c == '\u0085'
    || (0x20 ≤ c.toNat && c.toNat ≤ 0x7E)
    || (0xA0 ≤ c.toNat && c.toNat ≤ 0xFFFD)
    || 0x10000 ≤ c.toNat

def isBlank (c : Char) : Bool :=
  c == ' ' || c == '\t'

def isLineBreak (c : Char) : Bool :=
  c == '\n' || c == '\r' || c == '\u0085' || c == '\u2028' || c == '\u2029'

/-! ### Around the value -/

/-- The places outside the value: the start of a line, the line of the value behind it, and the
inside of a comment. -/
inductive Margin where
  | lineStart
  | behindValue
  | comment
deriving Repr, DecidableEq

/-- The text without its blanks and comments. A comment runs from a number sign to the end of
its line. A line may be indented by spaces but not by tabs. -/
def skipMargin : Margin → List Char → List Char
  | _, [] => []
  | margin, c :: rest =>
      if isLineBreak c then skipMargin .lineStart rest
      else
        match margin with
        | .comment => skipMargin .comment rest
        | .lineStart =>
            if c == ' ' then skipMargin .lineStart rest
            else if c == '#' then skipMargin .comment rest
            else c :: rest
        | .behindValue =>
            if isBlank c then skipMargin .behindValue rest
            else if c == '#' then skipMargin .comment rest
            else c :: rest

/-- The text without a byte order mark at its start. -/
def dropMark : List Char → List Char
  | '\uFEFF' :: rest => rest
  | s => s

/-! ### Strings -/

/-- The line breaks among blanks. Line feeds, carriage returns, their pairs and next-line
characters are one kind of line break. -/
def lineBreaks : List Char → List Char
  | [] => []
  | '\r' :: '\n' :: rest => '\n' :: lineBreaks rest
  | c :: rest =>
      if c == '\n' || c == '\r' || c == '\u0085' then '\n' :: lineBreaks rest
      else if isLineBreak c then c :: lineBreaks rest
      else lineBreaks rest

/-- What a run of bare blanks and line breaks stands for. Without a line break it stands for
itself. Otherwise its blanks do not count, a single ordinary line break is a space, and the first
of several is dropped. -/
def foldRun (run : List Char) : List Char :=
  match lineBreaks run with
  | [] => run
  | ['\n'] => [' ']
  | '\n' :: breaks => breaks
  | breaks => breaks

/-- Three hyphens or full stops and a blank, which end a document at the start of a line. -/
def startsMarker : List Json.StringPiece → Bool
  | .char a :: .char b :: .char c :: .char d :: _ =>
      (a == '-' || a == '.') && b == a && c == a && (isBlank d || isLineBreak d)
  | _ => false

/-- The pieces with every run of bare blanks folded, after a run that is still open. No line
inside a string may start with a marker. -/
def foldLines? (run : List Char) : List Json.StringPiece → Option (List Json.StringPiece)
  | [] => some ((foldRun run).map .char)
  | .char c :: rest =>
      if isBlank c || isLineBreak c then foldLines? (run ++ [c]) rest
      else if run.getLast?.any isLineBreak && startsMarker (.char c :: rest) then none
      else (foldLines? [] rest).map ((foldRun run).map .char ++ .char c :: ·)
  | .unit n :: rest => (foldLines? [] rest).map ((foldRun run).map .char ++ .unit n :: ·)

/-- Whether a piece is half of a surrogate pair. -/
def isHalf : Json.StringPiece → Bool
  | .char _ => false
  | .unit n => Json.StringPiece.isHighHalf n || Json.StringPiece.isLowHalf n

/-- A string whose opening quote is behind, and the text after its closing quote. -/
def string? (s : List Char) : Option (Option String × List Char) := do
  let (pieces, rest) ← Json.stringPieces? (fun _ => true) s
  if pieces.any isHalf then none
  let text ← Json.StringPiece.text? (← foldLines? [] pieces)
  return (some (String.ofList text), rest)

/-- The bytes that a key may have from its opening quote up to its colon. -/
def maxKeyBytes : Nat := 1024

/-- A key whose opening quote is behind, and the text after its colon. The colon stands on the
line of the opening quote. -/
def key? (s : List Char) : Option (Option String × List Char) := do
  let (key, rest) ← Json.keyBy? string? s
  let written := s.take (s.length - rest.length)
  if written.any isLineBreak then none
  if maxKeyBytes < (String.ofList written).utf8ByteSize then none
  return (key, rest)

def lexis : Json.Lexis where
  string? := string?
  key? := key?

/-! ### Documents -/

/-- The value of a document, or `none` within for an empty one. -/
def ofText? (text : String) : Option (Option Json) := do
  unless text.toList.all isPermitted do none
  match skipMargin .lineStart (dropMark text.toList) with
  | [] => return none
  | '\t' :: _ => none
  | s =>
      let (value, rest) ← Json.valueOf? lexis s
      if (skipMargin .behindValue rest).isEmpty then return some value else none

end Traceability.ConfigDocument
