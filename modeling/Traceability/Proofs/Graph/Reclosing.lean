import Traceability.Proofs.Claim.Reclosing
import Traceability.Proofs.Graph.Revision
import Traceability.Repair.Update

/-! Assembly under a change of closing markers.
The node of a requirement keeps its closing marker and the hash on it. Assembly looks at neither,
so the graph of blocks with changed markers is the graph of the blocks with changed nodes.
-/

namespace Traceability

variable {edit : Line → Line}

-----------------------------------------------------------------------------------------
-- Nodes
-----------------------------------------------------------------------------------------

namespace Node

/-- The line of the closing marker, as a change of its hash looks for it. -/
def closingLine (node : Node) : Line where
  number := ((node.int? FieldKey.endLine).map HashUpdate.unsignedWord).getD node.source.endLine
  text := (node.text? FieldKey.endMarker).getD ""

/-- The node after a change of its closing marker. -/
def reclose (edit : Line → Line) (node : Node) : Node :=
  if node.kind = .requirement then
    let last := edit node.closingLine
    let hash := (ClosingMarker.ofLine? last.text).bind ClosingMarker.hash?
    { node with
      fields := (node.fields.alter FieldKey.hash (fun _ => hash.map FieldValue.text)).insert
        FieldKey.endMarker (.text last.text) }
  else node

/-- A node without its closing marker and the hash on it. -/
def withoutClosing (node : Node) : Node :=
  { node with fields := (node.fields.erase FieldKey.hash).erase FieldKey.endMarker }

theorem reclose_of_other {node : Node} (other : node.kind ≠ .requirement)
    : node.reclose edit = node :=
  if_neg other

theorem id_reclose (node : Node) : (node.reclose edit).id = node.id := by
  rw [reclose]
  split <;> rfl

theorem kind_reclose (node : Node) : (node.reclose edit).kind = node.kind := by
  rw [reclose]
  split <;> rfl

theorem source_reclose (node : Node) : (node.reclose edit).source = node.source := by
  rw [reclose]
  split <;> rfl

/-- Edges and closing markers have nothing to do with each other. -/
theorem attach_reclose (edge : Edge) (position : Nat) (node : Node)
    : (node.attach edge position).reclose edit = (node.reclose edit).attach edge position := by
  by_cases kind : node.kind = .requirement
  · have attached : (node.attach edge position).kind = .requirement := kind
    rw [reclose, reclose, if_pos kind, if_pos attached]
    rfl
  · have attached : (node.attach edge position).kind ≠ .requirement := kind
    rw [reclose_of_other kind, reclose_of_other attached]

theorem field_reclose {node : Node} (kind : node.kind = .requirement) (key : String)
    : (node.reclose edit).fields[key]?
      = if FieldKey.endMarker = key then some (.text (edit node.closingLine).text)
        else if FieldKey.hash = key then
          ((ClosingMarker.ofLine? (edit node.closingLine).text).bind ClosingMarker.hash?).map
            FieldValue.text
        else node.fields[key]? := by
  rw [reclose, if_pos kind]
  simp [Std.ExtTreeMap.getElem?_insert, Std.ExtTreeMap.getElem?_alter]

/-- Nothing but the closing marker and the hash changes. -/
theorem withoutClosing_reclose (node : Node)
    : (node.reclose edit).withoutClosing = node.withoutClosing := by
  by_cases kind : node.kind = .requirement
  · have fields
        : ((node.reclose edit).fields.erase FieldKey.hash).erase FieldKey.endMarker
          = (node.fields.erase FieldKey.hash).erase FieldKey.endMarker := by
      refine Std.ExtTreeMap.ext_getElem? (fun key => ?_)
      simp only [Std.ExtTreeMap.getElem?_erase, Std.LawfulEqCmp.compare_eq_iff_eq,
        field_reclose kind]
      by_cases marker : FieldKey.endMarker = key
      · rw [if_pos marker, if_pos marker]
      · rw [if_neg marker, if_neg marker, if_neg marker]
        split <;> rfl
    rw [withoutClosing, fields, reclose, if_pos kind]
    rfl
  · rw [reclose_of_other kind]

/-- A node whose closing marker stays, and was read as it stands, stays. -/
theorem reclose_of_fixed {node : Node} (fixed : edit node.closingLine = node.closingLine)
    (marker : node.fields[FieldKey.endMarker]? = some (.text node.closingLine.text))
    (hash
      : node.fields[FieldKey.hash]?
        = ((ClosingMarker.ofLine? node.closingLine.text).bind ClosingMarker.hash?).map
            FieldValue.text)
    : node.reclose edit = node := by
  by_cases kind : node.kind = .requirement
  · have fields : (node.reclose edit).fields = node.fields := by
      refine Std.ExtTreeMap.ext_getElem? (fun key => ?_)
      rw [field_reclose kind, fixed]
      split
      · next same => rw [← same, marker]
      · split
        · next same => rw [← same, hash]
        · rfl
    rw [reclose, if_pos kind] at fields ⊢
    exact congrArg (fun fields => { node with fields }) fields
  · exact reclose_of_other kind

end Node

namespace Assembly

theorem closingLine_requirementNode (path : String) (block : Block) (requirement : Requirement)
    : (requirementNode path block requirement).closingLine
      = ⟨requirement.endLine, requirement.endMarker⟩ := by
  simp [Node.closingLine, requirementNode, Node.int?, Node.text?, Node.field_withField,
    FieldKey.endLine, FieldKey.endMarker]
  rfl

/-- The node of a requirement with a changed marker is the changed node. -/
theorem requirementNode_reclose (path : String) (block : Block) (requirement : Requirement)
    : requirementNode path block (requirement.reclose edit)
      = (requirementNode path block requirement).reclose edit := by
  have kind := kind_requirementNode path block requirement
  rw [Node.reclose, if_pos kind]
  refine requirementNode_changed path block ⟨requirement.body, _, _, rfl⟩ (fun key => ?_)
  have changed : ((requirementNode path block requirement).reclose edit).fields[key]? = _ :=
    Node.field_reclose kind key
  rw [Node.reclose, if_pos kind, closingLine_requirementNode] at changed
  rw [closingLine_requirementNode, changed]
  by_cases marker : FieldKey.endMarker = key
  · rw [if_pos marker, ← marker, marker_requirementNode]
  · rw [if_neg marker]
    by_cases hash : FieldKey.hash = key
    · rw [if_pos hash, ← hash, hash_requirementNode]
    · rw [if_neg hash]
      simp only [requirementNode, Node.field_withField, Node.field_withText, if_neg marker,
        if_neg hash]

end Assembly

-----------------------------------------------------------------------------------------
-- Graphs
-----------------------------------------------------------------------------------------

theorem Block.reclose_eq_revise (edit : Line → Line) (block : Block)
    : block.reclose edit = block.revise (Requirement.reclose edit) := by
  rw [Block.reclose, Block.revise]
  cases block.content <;> rfl

theorem revision_reclose (edit : Line → Line)
    : Revision (Requirement.reclose edit) (Node.reclose edit) where
  only requirement := ⟨requirement.body, _, _, rfl⟩
  node := Assembly.requirementNode_reclose
  other _ := Node.reclose_of_other
  id := Node.id_reclose
  source := Node.source_reclose
  attach := Node.attach_reclose

/-- The graph of a file with changed markers has the edges of the graph of the file, and its
nodes with changed markers. -/
theorem Graph.reclosed_assemble (scheme : Scheme) {file changed : ParsedFile}
    (path : changed.path = file.path)
    (blocks : changed.blocks.map Block.bare = file.blocks.map (Block.reclose edit))
    : (Graph.assemble scheme [file]).Revised (Node.reclose edit) (Graph.assemble scheme [changed])
      ∧ (Graph.assemble scheme [changed]).roots = (Graph.assemble scheme [file]).roots := by
  have revised : Assembly.FileRevised (Requirement.reclose edit) file changed := by
    refine ⟨path, blocks.trans (List.map_congr_left (fun block _ => ?_))⟩
    exact Block.reclose_eq_revise edit block
  exact revised_assemble (revision_reclose edit) scheme (.cons revised .nil)

end Traceability
