import Traceability.Command.Perform

/-! The command line program. -/

namespace Traceability

/-- The kind of failure behind an error of the operating system. -/
def ReadFailure.ofError : IO.Error → ReadFailure
  | .noFileOrDirectory .. => .notFound
  | .inappropriateType .. => .isDirectory
  | error => .other (toString error)

/-- The kind of a directory entry. Links are not followed. -/
def EntryKind.ofEntry (entry : IO.FS.DirEntry) : IO EntryKind := do
  match (← entry.path.symlinkMetadata).type with
  | .file => return .file
  | .dir => return .directory
  | _ => return .other

/-- The files of the operating system, relative to the current directory. -/
def nativeFileSystem : FileSystem IO where
  readText path := do
    try
      match String.fromUTF8? (← IO.FS.readBinFile path) with
      | some text => return .ok text
      | none => return .error .invalidText
    catch error => return .error (.ofError error)
  writeText path content := do
    try
      IO.FS.writeFile path content
      return .ok ()
    catch error => return .error (.ofError error)
  isFile path := do
    try
      return (← ((← IO.currentDir) / path).metadata).type == .file
    catch _ => return false
  entries path := do
    try
      let found ← ((← IO.currentDir) / path).readDir
      found.toList.mapM (fun entry => return (entry.fileName, ← EntryKind.ofEntry entry))
    catch _ => return []

end Traceability

open Traceability in
/-- Runs the program, prints its output and its complaints, and exits with its status. -/
def main (arguments : List String) : IO UInt32 := do
  let outcome ← Command.execute nativeFileSystem arguments
  IO.print outcome.output
  outcome.complaints.forM (fun complaint => IO.eprintln complaint)
  return UInt32.ofNat outcome.status
