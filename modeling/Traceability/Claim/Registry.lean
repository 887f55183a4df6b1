import Traceability.Claim.Comment
import Traceability.Claim.Journey
import Traceability.Claim.Reference
import Traceability.Claim.Requirement
import Traceability.Suppression

/-! The partition of a file among claimants.
Claimants run by priority, each on the lines that are still free, and the remainder takes what
is left. A proposed block is kept only if every line of its range is free, so each line of the
file ends up in exactly one block.
-/

namespace Traceability

namespace Claim

/-- Takes every line, one block for each run of consecutive numbers. -/
def remainder : Claimant where
  name := "remainder"
  priority := 999
  claim _ := Block.sweep (fun line rest => some (line.runLength rest, .remainder))

end Claim

/-- What was read from one file. -/
structure ParsedFile where
  path : String
  lineCount : Nat
  blocks : List Block
  suppressions : List Suppression
deriving Repr, DecidableEq

/-- Claimants in the order in which they run. -/
structure Registry where
  claimants : List Claimant

namespace Registry

/-- The registry that holds nothing but the remainder, which every registry ends with. -/
def empty : Registry := ⟨[]⟩

/-- Puts a claimant after those of lower or equal priority. -/
def insertByPriority (claimant : Claimant) : List Claimant → List Claimant
  | [] => [claimant]
  | other :: rest =>
      if other.priority ≤ claimant.priority then other :: insertByPriority claimant rest
      else claimant :: other :: rest

def register (registry : Registry) (claimant : Claimant) : Registry :=
  ⟨insertByPriority claimant registry.claimants⟩

def ofList (claimants : List Claimant) : Registry :=
  claimants.foldl register empty

/-- The registry of all readers of blocks. -/
def standard : Registry :=
  ofList [Claim.comment, Claim.requirement, Claim.journey, Claim.codeReference,
    Claim.testReference]

/-- A partition under way: the lines that are still free, and the blocks kept so far. -/
structure Partition where
  free : List Line
  blocks : List Block

/-- Whether a block covers some line and all lines of its range are free. As numbers are
distinct, they are if as many free lines fall into the range as it has numbers. -/
def covers (free : List Line) (block : Block) : Bool :=
  block.startLine ≤ block.endLine
    && (free.filter (fun line => block.includes line.number)).length
      == block.endLine + 1 - block.startLine

/-- Keeps a block if its lines are free, and takes them. -/
def Partition.accept (partition : Partition) (block : Block) : Partition :=
  if covers partition.free block then
    { free := partition.free.filter (fun line => !block.includes line.number)
      blocks := partition.blocks ++ [block] }
  else partition

/-- Offers the free lines to a claimant and keeps what it may take. -/
def Partition.pass (context : ClaimContext) (partition : Partition) (claimant : Claimant)
    : Partition :=
  if partition.free = [] then partition
  else (claimant.claim context partition.free).foldl Partition.accept partition

/-- The blocks of a file, by first line. -/
def blocks (registry : Registry) (context : ClaimContext) (lines : List Line) : List Block :=
  let passes := registry.claimants ++ [Claim.remainder]
  let final := passes.foldl (Partition.pass context) { free := lines, blocks := [] }
  final.blocks.mergeSort (fun a b => a.startLine ≤ b.startLine)

def parseFile (registry : Registry) (scheme : Scheme) (path text : String) : ParsedFile :=
  let lines := Line.ofText text
  { path
    lineCount := lines.length
    blocks := registry.blocks { path, scheme } lines
    suppressions := Suppression.scan lines }

end Registry

end Traceability
