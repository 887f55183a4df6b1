import Traceability.Disk.FileSystem
import Traceability.Repair.Rewrite

/-! Updating stored hashes in files.
Each file is read, rewritten and written on its own. A file in which some marker cannot be found
is left as it is, and the other files are still updated.
-/

namespace Traceability

inductive FixFailure where
  | anchor (error : AnchorNotFound)
  | file (path : String) (failure : ReadFailure)
deriving Repr, DecidableEq

def FixFailure.message : FixFailure → String
  | .anchor error => error.message
  | .file path failure => path ++ ": " ++ failure.message

structure FixReport where
  updated : List HashUpdate := []
  filesWritten : List String := []
  failures : List FixFailure := []
deriving Repr, DecidableEq

namespace FixReport

def isClean (report : FixReport) : Bool :=
  report.failures.isEmpty

end FixReport

/-- What came of one file. -/
inductive FileOutcome where
  | written (path : String) (updates : List HashUpdate)
  | unchanged (path : String)
  | failed (failure : FixFailure)
deriving Repr, DecidableEq

/-- What to do with a file, given what came of reading it: a text to write, or nothing. -/
def FileOutcome.plan (path : String) (updates : List HashUpdate)
    (read : Except ReadFailure String)
    : Except FixFailure (Option String) :=
  match read with
  | .error failure => .error (.file path failure)
  | .ok text =>
      match Rewrite.rewrite path text updates with
      | .error error => .error (.anchor error)
      | .ok rewritten => .ok (if rewritten = text then none else some rewritten)

/-- The report of outcomes, in their order. -/
def FixReport.ofOutcomes (outcomes : List FileOutcome) : FixReport :=
  outcomes.foldl
    (fun report outcome =>
      match outcome with
      | .written path updates =>
          { report with
            updated := report.updated ++ updates
            filesWritten := report.filesWritten ++ [path] }
      | .unchanged _ => report
      | .failed failure => { report with failures := report.failures ++ [failure] })
    {}

namespace HashUpdate

/-- The paths that changes name, in order and each once. -/
def paths (updates : List HashUpdate) : List String :=
  ((updates.map HashUpdate.path).mergeSort (fun a b => (compare a b).isLE)).eraseDups

end HashUpdate

/-- Applies changes to one file. -/
def fixFile [Monad m] (fs : FileSystem m) (path : String) (updates : List HashUpdate)
    : m FileOutcome := do
  match FileOutcome.plan path updates (← fs.readText path) with
  | .error failure => return .failed failure
  | .ok none => return .unchanged path
  | .ok (some text) =>
      match ← fs.writeText path text with
      | .error failure => return .failed (.file path failure)
      | .ok () => return .written path updates

/-- Applies changes to the files that they name, in the order of the paths. -/
def fixFiles [Monad m] (fs : FileSystem m) (updates : List HashUpdate) : m FixReport := do
  let outcomes ← (HashUpdate.paths updates).mapM (fun path =>
    fixFile fs path (updates.filter (fun update => update.path = path)))
  return FixReport.ofOutcomes outcomes

end Traceability
