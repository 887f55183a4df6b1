import Traceability.Claim.Comment
import Traceability.Claim.Requirement
import Traceability.Proofs.Claim.Matching
import Traceability.Proofs.Line.Heading

/-! Claims under a change of closing markers.
A closing marker opens nothing. If it is changed into another closing marker, requirements are
found where they were, with what the new marker says. Comments are found where they were too,
as long as the change respects the signs that close them.
-/

namespace Traceability

-----------------------------------------------------------------------------------------
-- Changes of closing markers
-----------------------------------------------------------------------------------------

/-- A closing marker and what it is changed into, which closes the same blocks. -/
structure Line.Reclosed (line changed : Line) : Prop where
  before : Claim.closesBlock line = true
  after : Claim.closesBlock changed = true
  closes : Claim.Comment.closes changed = Claim.Comment.closes line

/-- A change that keeps the numbers of lines and leaves all lines alone but closing markers. -/
structure Reclosing (edit : Line → Line) (lines : List Line) : Prop where
  number : ∀ line, (edit line).number = line.number
  marker : ∀ line ∈ lines, edit line ≠ line → Line.Reclosed line (edit line)

/-- The requirement after a change of its closing marker. -/
def Requirement.reclose (edit : Line → Line) (requirement : Requirement) : Requirement :=
  let last := edit ⟨requirement.endLine, requirement.endMarker⟩
  { requirement with
    storedHash := (ClosingMarker.ofLine? last.text).bind ClosingMarker.hash?
    endMarker := last.text }

/-- Only requirements hold what their closing markers say. -/
def Content.reclose (edit : Line → Line) : Content → Content
  | .requirement held => .requirement (held.reclose edit)
  | content => content

namespace Block

/-- The block after a change of closing markers, without the text of its lines. -/
def reclose (edit : Line → Line) (block : Block) : Block :=
  { block with rawText := "", content := block.content.reclose edit }

/-- A change leaves the lines of a block alone. -/
def Untouched (edit : Line → Line) (lines : List Line) (block : Block) : Prop :=
  ∀ line ∈ lines, block.includes line.number = true → edit line = line

theorem parts_of_bare {edit : Line → Line} {block other : Block}
    (same : other.bare = block.reclose edit)
    : other.startLine = block.startLine
      ∧ other.endLine = block.endLine
      ∧ other.content = block.content.reclose edit := by
  rw [bare, reclose, Block.mk.injEq] at same
  exact ⟨same.1, same.2.1, same.2.2.2⟩

theorem reclose_of_other (edit : Line → Line) {block : Block}
    (other : ∀ requirement, block.content ≠ .requirement requirement)
    : block.reclose edit = block.bare := by
  have same : block.content.reclose edit = block.content := by
    cases content : block.content with
    | requirement requirement => exact absurd content (other requirement)
    | _ => rfl
  rw [reclose, same, bare]

end Block

-----------------------------------------------------------------------------------------
-- Closing markers open nothing
-----------------------------------------------------------------------------------------

open Text

namespace ClosingMarker

theorem afterOpen?_eq_none {text : String} (closes : (ofLine? text).isSome = true)
    (scheme : Scheme)
    : Claim.Comment.afterOpen? scheme text = none := by
  obtain ⟨rest, starts⟩ := exists_start closes
  have trimmed : trimStart text.toList = '*' :: 'E' :: rest := by
    rw [starts]
    exact trimStart_cons (by decide) _
  rw [Claim.Comment.afterOpen?, trimmed]
  rfl

end ClosingMarker

namespace Reclosing

variable {edit : Line → Line} {lines : List Line}

theorem sublist (reclosing : Reclosing edit lines) {others : List Line} (sub : others ⊆ lines)
    : Reclosing edit others where
  number := reclosing.number
  marker line member := reclosing.marker line (sub member)

/-- A test that closing markers fail answers as before. -/
theorem eq_of_other {α : Type} (reclosing : Reclosing edit lines) {line : Line}
    (member : line ∈ lines) (read : Line → α) (failed : α)
    (other : ∀ line, Claim.closesBlock line = true → read line = failed)
    : read (edit line) = read line := by
  by_cases same : edit line = line
  · rw [same]
  · have marker := reclosing.marker line member same
    rw [other _ marker.after, other _ marker.before]

theorem closesBlock_eq (reclosing : Reclosing edit lines) {line : Line} (member : line ∈ lines)
    : Claim.closesBlock (edit line) = Claim.closesBlock line :=
  reclosing.eq_of_other member _ true (fun _ closes => closes)

theorem closes_eq (reclosing : Reclosing edit lines) {line : Line} (member : line ∈ lines)
    : Claim.Comment.closes (edit line) = Claim.Comment.closes line := by
  by_cases same : edit line = line
  · rw [same]
  · exact (reclosing.marker line member same).closes

theorem heading_eq (reclosing : Reclosing edit lines) {line : Line} (member : line ∈ lines)
    (scheme : Scheme)
    : Heading.requirement? scheme (edit line).text
      = Heading.requirement? scheme line.text := by
  refine reclosing.eq_of_other member (fun line => Heading.requirement? scheme line.text) none ?_
  intro line closes
  rw [Heading.requirement?, Heading.ofParts?, ClosingMarker.parts?_eq_none closes]
  rfl

theorem stops_eq (reclosing : Reclosing edit lines) {line : Line} (member : line ∈ lines)
    (scheme : Scheme)
    : Claim.Requirement.stops scheme (edit line) = Claim.Requirement.stops scheme line := by
  refine reclosing.eq_of_other member (Claim.Requirement.stops scheme) false ?_
  intro line closes
  rw [Claim.Requirement.stops, Heading.requirement?, Heading.ofParts?, Heading.opensJourney,
    ClosingMarker.parts?_eq_none closes, ClosingMarker.parts?_eq_none closes]
  rfl

theorem afterOpen?_eq (reclosing : Reclosing edit lines) {line : Line} (member : line ∈ lines)
    (scheme : Scheme)
    : Claim.Comment.afterOpen? scheme (edit line).text
      = Claim.Comment.afterOpen? scheme line.text :=
  reclosing.eq_of_other member (fun line => Claim.Comment.afterOpen? scheme line.text) none
    (fun _ closes => ClosingMarker.afterOpen?_eq_none closes scheme)

/-- A line that is no closing marker stays. -/
theorem fixes (reclosing : Reclosing edit lines) {line : Line} (member : line ∈ lines)
    (open' : Claim.closesBlock line = false)
    : edit line = line := by
  by_contra changed
  rw [(reclosing.marker line member changed).before] at open'
  exact Bool.noConfusion open'

end Reclosing

end Traceability
