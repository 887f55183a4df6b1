import Traceability.Disk.FileSystem
import Traceability.Run

/-! Loading the files of a run. -/

namespace Traceability

/-- A path as places report it. -/
def shownPath (path : String) : String :=
  String.ofList (path.toList.map (fun c => if c = '\\' then '/' else c))

namespace SourceSet

/-- Adds what came of reading a file. A file that cannot be read is recorded with the reason. -/
def add (sources : SourceSet) (path : String) (result : Except ReadFailure String) : SourceSet :=
  match result with
  | .ok text => { sources with files := sources.files ++ [⟨shownPath path, text⟩] }
  | .error failure =>
      { sources with failures := sources.failures ++ [⟨shownPath path, failure.message⟩] }

/-- Reads files in the order of the paths. -/
def load [Monad m] (fs : FileSystem m) (paths : List String) : m SourceSet :=
  paths.foldlM (fun sources path => return sources.add path (← fs.readText path)) {}

end SourceSet

end Traceability
