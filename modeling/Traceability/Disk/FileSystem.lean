/-! What the program asks of a file system. -/

namespace Traceability

/-- Why a file has no text. -/
inductive ReadFailure where
  | notFound
  | isDirectory
  | notADirectory
  | nameTooLong
  | nulInPath
  | invalidText
  | other (reason : String)
deriving Repr, DecidableEq

def ReadFailure.message : ReadFailure → String
  | .notFound => "No such file or directory (os error 2)"
  | .isDirectory => "Is a directory (os error 21)"
  | .notADirectory => "Not a directory (os error 20)"
  | .nameTooLong => "File name too long (os error 36)"
  | .nulInPath => "file name contained an unexpected NUL byte"
  | .invalidText => "stream did not contain valid UTF-8"
  | .other reason => reason

/-- What a name in a directory stands for. Links are neither files nor directories. -/
inductive EntryKind where
  | file
  | directory
  | other
deriving Repr, DecidableEq

/-- The operations on files that the program needs, as computations of some monad. -/
structure FileSystem (m : Type → Type) where
  readText : String → m (Except ReadFailure String)
  /-- Replaces the text of a file, or says why it cannot. -/
  writeText : String → String → m (Except ReadFailure Unit)
  isFile : String → m Bool
  /-- The names in a directory. There are none where there is no directory to read. -/
  entries : String → m (List (String × EntryKind))

end Traceability
