import Std.Data.ExtTreeMap
import Traceability.Disk.FileSystem
import Traceability.Disk.Path

/-! A disk as a value: the tree of directories and files below the current directory, by the
names on the way to them. What lies outside this tree is not on the disk, so paths that lead
there name nothing.
-/

namespace Traceability

inductive Entry where
  | directory
  | text (content : String)
  /-- A file whose bytes are not the encoding of a text. -/
  | binary (bytes : List UInt8)
deriving Repr, DecidableEq

structure Disk where
  entries : Std.ExtTreeMap (List String) Entry := ∅
deriving DecidableEq

namespace Disk

/-- What is at a place. The top of the tree is a directory, the current one. -/
def entry? (disk : Disk) (place : List String) : Option Entry :=
  if place = [] then some .directory else disk.entries[place]?

/-- The bytes that a name in a directory may have. -/
def maxNameBytes : Nat := 255

/-- The bytes that a path may have. -/
def maxPathBytes : Nat := 4095

/-- The place that segments lead to from a place. Every segment is looked up in a directory,
and the way does not go above the top. -/
def follow (disk : Disk) (place : List String) : List String → Except ReadFailure (List String)
  | [] => .ok place
  | segment :: rest =>
      match disk.entry? place with
      | none => .error .notFound
      | some .directory =>
          if segment = "" ∨ segment = "." then disk.follow place rest
          else if segment = ".." then
            if place = [] then .error .notFound else disk.follow place.dropLast rest
          else if maxNameBytes < segment.utf8ByteSize then .error .nameTooLong
          else disk.follow (place ++ [segment]) rest
      | some _ => .error .notADirectory

/-- The place that a path names. Paths from the root of the file system name none. -/
def place (disk : Disk) (path : String) : Except ReadFailure (List String) :=
  if path.toList.contains '\x00' then .error .nulInPath
  else if path = "" then .error .notFound
  else if maxPathBytes < path.utf8ByteSize then .error .nameTooLong
  else if path.toList.head? = some '/' then .error .notFound
  else disk.follow [] (Path.segments path)

def readText (disk : Disk) (path : String) : Except ReadFailure String :=
  match disk.place path with
  | .error failure => .error failure
  | .ok place =>
      match disk.entry? place with
      | none => .error .notFound
      | some .directory => .error .isDirectory
      | some (.binary _) => .error .invalidText
      | some (.text content) => .ok content

/-- The disk with an entry at a place. -/
def put (disk : Disk) (place : List String) (entry : Entry) : Disk :=
  ⟨disk.entries.insert place entry⟩

/-- The disk with a text in place of what a file held. -/
def writeText (disk : Disk) (path content : String) : Except ReadFailure Disk :=
  match disk.place path with
  | .error failure => .error failure
  | .ok place =>
      match disk.entry? place with
      | some .directory => .error .isDirectory
      | _ => .ok (disk.put place (.text content))

def isFile (disk : Disk) (path : String) : Bool :=
  match disk.place path with
  | .error _ => false
  | .ok place =>
      match disk.entry? place with
      | some (.text _) => true
      | some (.binary _) => true
      | _ => false

def kindOf : Entry → EntryKind
  | .directory => .directory
  | _ => .file

/-- The names directly below a place. -/
def namesBelow (disk : Disk) (place : List String) : List (String × EntryKind) :=
  disk.entries.toList.filterMap (fun (other, entry) =>
    match other.getLast? with
    | some name => if other.dropLast = place then some (name, kindOf entry) else none
    | none => none)

def list (disk : Disk) (path : String) : List (String × EntryKind) :=
  match disk.place path with
  | .error _ => []
  | .ok place =>
      match disk.entry? place with
      | some .directory => disk.namesBelow place
      | _ => []

/-- The operations on a disk that is kept as a state. -/
def fileSystem : FileSystem (StateM Disk) where
  readText path := return (← get).readText path
  writeText path content := do
    match (← get).writeText path content with
    | .ok disk => do
        set disk
        return .ok ()
    | .error failure => return .error failure
  isFile path := return (← get).isFile path
  entries path := return (← get).list path

end Disk

end Traceability
