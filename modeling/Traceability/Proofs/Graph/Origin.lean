import Traceability.Proofs.Claim.Standard
import Traceability.Proofs.Graph.Blocks
import Traceability.Proofs.Graph.Reclosing
import Traceability.Run

/-! Where the requirements of a graph were read.
Every requirement comes from a block of its file, and the block ends with the closing marker
that the node records. As blocks are disjoint, no two requirements share a marker.
-/

namespace Traceability

-----------------------------------------------------------------------------------------
-- Closing markers of requirements
-----------------------------------------------------------------------------------------

/-- The graph of one file. -/
def Graph.ofText (scheme : Scheme) (path text : String) : Graph :=
  Graph.ofSources scheme { files := [⟨path, text⟩] }

/-- The block from which a requirement of a file was read, and the closing marker at its end. -/
structure Node.Origin (scheme : Scheme) (path text : String) (node : Node) (block : Block)
    : Prop where
  mem : block ∈ (Registry.standard.parseFile scheme path text).blocks
  requirement
    : ∃ requirement,
        block.content = .requirement requirement
        ∧ node.bare = Assembly.requirementNode path block requirement
  line : node.closingLine ∈ Line.ofText text
  closes : Claim.closesBlock node.closingLine = true
  ends : block.endLine = node.closingLine.number
  marker : node.fields[FieldKey.endMarker]? = some (.text node.closingLine.text)
  hash
    : node.fields[FieldKey.hash]?
      = ((ClosingMarker.ofLine? node.closingLine.text).bind ClosingMarker.hash?).map
          FieldValue.text

namespace Graph

variable {scheme : Scheme} {path text : String}

theorem exists_origin {node : Node} (member : node ∈ (ofText scheme path text).requirements)
    : ∃ block, node.Origin scheme path text block := by
  obtain ⟨found, kind⟩ := mem_nodesOfKind_iff.mp member
  obtain ⟨file, single, block, own, declared⟩ := exists_block (bare?_of_node? found)
  obtain rfl := List.mem_singleton.mp single
  obtain ⟨requirement, content, bare⟩ := Assembly.requirement_of_mem_nodesOf declared kind
  obtain ⟨claimant, known, free, below, claimed⟩ := Registry.mem_blocks_claim own
  obtain ⟨heading, inner, last, -, isFree, closes, ends, rfl⟩ :=
    Claim.requirement_of_mem_claim known claimed content
  have fields := Node.fields_of_bare (a := node) (b := node.bare) rfl
  have closingLine : node.closingLine = last := by
    have same : node.closingLine = node.bare.closingLine := rfl
    rw [same, bare, Assembly.closingLine_requirementNode]
    rfl
  refine ⟨block, ?_⟩
  constructor
  · exact own
  · exact ⟨_, content, bare⟩
  · exact closingLine ▸ below.subset isFree
  · exact closingLine ▸ closes
  · exact closingLine ▸ ends
  · rw [fields, bare, Assembly.marker_requirementNode, closingLine]
    rfl
  · rw [fields, bare, Assembly.hash_requirementNode, closingLine]
    rfl

/-- Requirements that close on one line are one requirement. Witness: their blocks are not
disjoint, and the block says what the requirement is. -/
theorem eq_of_closingLine {a b : Node} (memberA : a ∈ (ofText scheme path text).requirements)
    (memberB : b ∈ (ofText scheme path text).requirements)
    (same : a.closingLine.number = b.closingLine.number)
    : a = b := by
  obtain ⟨blockA, originA⟩ := exists_origin memberA
  obtain ⟨blockB, originB⟩ := exists_origin memberB
  have ascending := Line.ascending_ofText text
  have block : blockA = blockB := by
    by_contra distinct
    refine Registry.disjoint_of_mem_blocks ascending originA.mem originB.mem distinct
      a.closingLine.number ⟨?_, ?_⟩
    · rw [Block.includes_iff, ← originA.ends]
      exact ⟨Registry.mem_blocks_nonempty ascending originA.mem, Nat.le_refl _⟩
    · rw [Block.includes_iff, same, ← originB.ends]
      exact ⟨Registry.mem_blocks_nonempty ascending originB.mem, Nat.le_refl _⟩
  subst block
  obtain ⟨requirementA, contentA, bareA⟩ := originA.requirement
  obtain ⟨requirementB, contentB, bareB⟩ := originB.requirement
  have requirement : requirementA = requirementB :=
    Content.requirement.inj (contentA.symm.trans contentB)
  have bare : a.bare = b.bare := by rw [bareA, bareB, requirement]
  have id : a.id = b.id := congrArg (fun node => node.id) bare
  have foundA := (mem_nodesOfKind_iff.mp memberA).1
  have foundB := (mem_nodesOfKind_iff.mp memberB).1
  rw [id, foundB] at foundA
  exact (Option.some.inj foundA).symm

end Graph

end Traceability
