import Traceability.Disk.FileSystem
import Traceability.Disk.Path

/-! Discovery of the files to read.
A path that is a file counts as it is. A directory stands for the files below it with a known
extension, apart from directories that are hidden or hold what other tools produce. Files come
in the order of paths, and a file that is found in several ways comes once.
-/

namespace Traceability.Discovery

/-- The extensions of files that may hold requirements or references. -/
def extensions : List String :=
  ["md", "rs", "py", "js", "ts", "tsx", "go", "java", "kt", "c", "h", "cc", "cpp", "hpp", "cs",
    "rb", "sh", "sql", "swift", "dart", "lua"]

def skippedNames : List String :=
  ["target", "node_modules", "vendor", "build", "dist"]

/-- Whether a directory below another one is left out. -/
def isSkipped (name : String) : Bool :=
  name.toList.head? = some '.' || skippedNames.contains name

def hasKnownExtension (name : String) : Bool :=
  match Path.extension? name with
  | some extension => extensions.contains extension
  | none => false

/-- The most directories that a path may go through. -/
def maxDepth : Nat := 4096

/-- The files below a directory, up to a depth. -/
def filesBelow [Monad m] (fs : FileSystem m) : Nat → String → m (List String)
  | 0, _ => return []
  | depth + 1, directory => do
      let found ← (← fs.entries directory).mapM (fun (name, kind) =>
        match kind with
        | .file => return if hasKnownExtension name then [Path.inside directory name] else []
        | .directory =>
            if isSkipped name then return []
            else filesBelow fs depth (Path.inside directory name)
        | .other => return [])
      return found.flatten

/-- Puts a path among paths in order, unless it is there already. -/
def insertPath (path : String) : List String → List String
  | [] => [path]
  | other :: rest =>
      match Path.order path other with
      | .lt => path :: other :: rest
      | .eq => other :: rest
      | .gt => other :: insertPath path rest

/-- The files that a path stands for. -/
def filesAt [Monad m] (fs : FileSystem m) (path : String) : m (List String) := do
  if ← fs.isFile path then return [Path.relative path]
  else return (← filesBelow fs maxDepth path).map Path.relative

/-- The files that paths stand for. -/
def files [Monad m] (fs : FileSystem m) (paths : List String) : m (List String) := do
  let found ← paths.mapM (filesAt fs)
  return found.flatten.foldl (fun sorted path => insertPath path sorted) []

end Traceability.Discovery
