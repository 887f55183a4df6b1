/-! Prefixes, first and last occurrences, and splitting.
Each search returns the parts of the text around what was found, so that the parts and the
word together are the text again.
-/

namespace Traceability.Text

/-- The rest of a text that starts with the word. -/
def strip? : List Char → List Char → Option (List Char)
  | [], s => some s
  | _ :: _, [] => none
  | w :: ws, c :: cs => if w = c then strip? ws cs else none

/-- What stands before and after the first occurrence of the word. -/
def cutFirst? (word : List Char) : List Char → Option (List Char × List Char)
  | [] => if word = [] then some ([], []) else none
  | c :: cs =>
      match strip? word (c :: cs) with
      | some rest => some ([], rest)
      | none => (cutFirst? word cs).map (fun (before, rest) => (c :: before, rest))

/-- What stands before and after the last occurrence of the word. -/
def cutLast? (word : List Char) : List Char → Option (List Char × List Char)
  | [] => if word = [] then some ([], []) else none
  | c :: cs =>
      match cutLast? word cs with
      | some (before, rest) => some (c :: before, rest)
      | none => (strip? word (c :: cs)).map (fun rest => ([], rest))

def contains (word s : List Char) : Bool :=
  (cutFirst? word s).isSome

/-- The pieces between the characters that satisfy the test, empty pieces included. -/
def splitWhere (p : Char → Bool) : List Char → List (List Char)
  | [] => [[]]
  | c :: cs =>
      if p c then [] :: splitWhere p cs
      else
        match splitWhere p cs with
        | [] => [[c]]
        | piece :: pieces => (c :: piece) :: pieces

/-- The texts in order, with the separator between each two. -/
def join (separator : List Char) : List (List Char) → List Char
  | [] => []
  | [s] => s
  | s :: t :: rest => s ++ separator ++ join separator (t :: rest)

end Traceability.Text
