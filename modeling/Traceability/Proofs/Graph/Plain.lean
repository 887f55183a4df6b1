import Traceability.Proofs.Claim.Padding
import Traceability.Proofs.Graph.Declared
import Traceability.Proofs.Graph.Revision

/-! Graphs without the layout of requirements.
How the body of a requirement is laid out and how its closing marker is written shows in two
attributes of its node. Here the body is in canonical form and the marker is empty, and everything
else in the graph stays, so two graphs that agree so far differ in layout only.
-/

namespace Traceability

-----------------------------------------------------------------------------------------
-- Nodes
-----------------------------------------------------------------------------------------

/-- An attribute of a requirement: the body in canonical form, no closing marker, and any other
attribute as it is. -/
def FieldValue.plain (key : String) : FieldValue → FieldValue
  | .text s =>
      if key = FieldKey.body then .text (String.ofList (Canonical.form s.toList))
      else if key = FieldKey.endMarker then .text ""
      else .text s
  | value => value

/-- A text stays a text. -/
theorem FieldValue.exists_plain_text (key s : String)
    : ∃ other, (FieldValue.text s).plain key = .text other := by
  rw [plain]
  split
  · exact ⟨_, rfl⟩
  · split
    · exact ⟨_, rfl⟩
    · exact ⟨s, rfl⟩

theorem FieldValue.plain_of_ne {key : String} (notBody : key ≠ FieldKey.body)
    (notMarker : key ≠ FieldKey.endMarker) (value : FieldValue)
    : value.plain key = value := by
  cases value <;> simp [plain, notBody, notMarker]

namespace Node

/-- The node with plain attributes if it is that of a requirement. -/
def plain (node : Node) : Node :=
  if node.kind = .requirement then { node with fields := node.fields.map FieldValue.plain }
  else node

theorem plain_of_other {node : Node} (other : node.kind ≠ .requirement) : node.plain = node :=
  if_neg other

/-- Attributes are all that changes. -/
theorem plain_eq (node : Node) : ∃ fields, node.plain = { node with fields } := by
  rw [plain]
  split
  · exact ⟨_, rfl⟩
  · exact ⟨node.fields, rfl⟩

@[simp]
theorem id_plain (node : Node) : node.plain.id = node.id := by
  obtain ⟨fields, same⟩ := node.plain_eq
  rw [same]

@[simp]
theorem kind_plain (node : Node) : node.plain.kind = node.kind := by
  obtain ⟨fields, same⟩ := node.plain_eq
  rw [same]

@[simp]
theorem label_plain (node : Node) : node.plain.label = node.label := by
  obtain ⟨fields, same⟩ := node.plain_eq
  rw [same]

@[simp]
theorem source_plain (node : Node) : node.plain.source = node.source := by
  obtain ⟨fields, same⟩ := node.plain_eq
  rw [same]

@[simp]
theorem outgoing_plain (node : Node) : node.plain.outgoing = node.outgoing := by
  obtain ⟨fields, same⟩ := node.plain_eq
  rw [same]

@[simp]
theorem incoming_plain (node : Node) : node.plain.incoming = node.incoming := by
  obtain ⟨fields, same⟩ := node.plain_eq
  rw [same]

theorem attach_plain (edge : Edge) (position : Nat) (node : Node)
    : (node.attach edge position).plain = node.plain.attach edge position := by
  by_cases kind : node.kind = .requirement
  · have attached : (node.attach edge position).kind = .requirement := kind
    rw [plain, plain, if_pos kind, if_pos attached]
    rfl
  · have attached : (node.attach edge position).kind ≠ .requirement := kind
    rw [plain_of_other kind, plain_of_other attached]

theorem field_plain (node : Node) (key : String)
    : node.plain.fields[key]?
      = if node.kind = .requirement then node.fields[key]?.map (FieldValue.plain key)
        else node.fields[key]? := by
  rw [plain]
  split
  · exact Std.ExtTreeMap.getElem?_map
  · rfl

theorem text?_plain (node : Node) {key : String} (notBody : key ≠ FieldKey.body)
    (notMarker : key ≠ FieldKey.endMarker)
    : node.plain.text? key = node.text? key := by
  by_cases kind : node.kind = .requirement
  · rw [text?, text?, field_plain, if_pos kind]
    cases node.fields[key]? with
    | none => rfl
    | some value => rw [Option.map_some, FieldValue.plain_of_ne notBody notMarker]
  · rw [plain_of_other kind]

theorem body_plain {node : Node} (kind : node.kind = .requirement)
    : node.plain.text? FieldKey.body
      = (node.text? FieldKey.body).map (fun s => String.ofList (Canonical.form s.toList)) := by
  rw [text?, text?, field_plain, if_pos kind]
  cases node.fields[FieldKey.body]? with
  | none => rfl
  | some value => cases value <;> simp [FieldValue.plain]

/-- Nothing but texts changes, and a text stays a text. -/
theorem field_plain_cases (node : Node) (key : String)
    : node.plain.fields[key]? = node.fields[key]?
      ∨ ∃ s other,
          node.fields[key]? = some (.text s) ∧ node.plain.fields[key]? = some (.text other) := by
  by_cases kind : node.kind = .requirement
  · rw [field_plain, if_pos kind]
    cases node.fields[key]? with
    | none => exact Or.inl rfl
    | some value =>
        cases value with
        | text s =>
            obtain ⟨other, changed⟩ := FieldValue.exists_plain_text key s
            exact Or.inr ⟨s, other, rfl, congrArg some changed⟩
        | int n => exact Or.inl rfl
        | flag b => exact Or.inl rfl
        | list items => exact Or.inl rfl
  · rw [plain_of_other kind]
    exact Or.inl rfl

@[simp]
theorem list_plain (node : Node) (key : String) : node.plain.list key = node.list key := by
  rw [list, list]
  rcases node.field_plain_cases key with same | ⟨s, other, before, after⟩
  · rw [same]
  · rw [before, after]

@[simp]
theorem flag_plain (node : Node) (key : String) : node.plain.flag key = node.flag key := by
  rw [flag, flag]
  rcases node.field_plain_cases key with same | ⟨s, other, before, after⟩
  · rw [same]
  · rw [before, after]

end Node

-----------------------------------------------------------------------------------------
-- Graphs
-----------------------------------------------------------------------------------------

namespace Graph

/-- The graph with plain nodes. -/
def plain (graph : Graph) : Graph :=
  { graph with
    nodes := graph.nodes.map (fun _ node => node.plain)
    keyed := by
      intro id node found
      rw [Std.ExtTreeMap.getElem?_map, Option.map_eq_some_iff] at found
      obtain ⟨old, present, rfl⟩ := found
      rw [Node.id_plain]
      exact graph.keyed id old present }

variable (graph : Graph)

@[simp]
theorem node?_plain (id : String) : graph.plain.node? id = (graph.node? id).map Node.plain :=
  Std.ExtTreeMap.getElem?_map

@[simp]
theorem contains_plain (id : String) : graph.plain.contains id = graph.contains id :=
  Std.ExtTreeMap.contains_map

@[simp]
theorem nodeList_plain : graph.plain.nodeList = graph.nodeList.map Node.plain := by
  rw [nodeList, nodeList, values_eq_map_snd, values_eq_map_snd, plain,
    Std.ExtTreeMap.toList_map, List.map_map, List.map_map]
  rfl

@[simp]
theorem nodesOfKind_plain (kind : NodeKind)
    : graph.plain.nodesOfKind kind = (graph.nodesOfKind kind).map Node.plain := by
  rw [nodesOfKind, nodesOfKind, nodeList_plain, List.filter_map]
  simp only [Function.comp_def, Node.kind_plain]

@[simp]
theorem requirements_plain : graph.plain.requirements = graph.requirements.map Node.plain :=
  graph.nodesOfKind_plain .requirement

@[simp]
theorem outgoing_plain (id : String) : graph.plain.outgoing id = graph.outgoing id := by
  rw [outgoing, outgoing, node?_plain]
  cases graph.node? id with
  | none => rfl
  | some node => exact congrArg graph.edgesAt node.outgoing_plain

@[simp]
theorem incoming_plain (id : String) : graph.plain.incoming id = graph.incoming id := by
  rw [incoming, incoming, node?_plain]
  cases graph.node? id with
  | none => rfl
  | some node => exact congrArg graph.edgesAt node.incoming_plain

@[simp]
theorem isRequirement_plain (id : String)
    : graph.plain.isRequirement id = graph.isRequirement id := by
  rw [isRequirement, isRequirement, node?_plain]
  cases graph.node? id with
  | none => rfl
  | some node => simp

@[simp]
theorem assertionsOf_plain (id : String)
    : graph.plain.assertionsOf id = (graph.assertionsOf id).map Node.plain := by
  rw [assertionsOf, assertionsOf, node?_plain]
  cases graph.node? id with
  | none => rfl
  | some node => simp [List.map_filterMap]

@[simp]
theorem idAndAssertions_plain (id : String)
    : graph.plain.idAndAssertions id = graph.idAndAssertions id := by
  simp [idAndAssertions]

@[simp]
theorem owner?_plain (target : String)
    : graph.plain.owner? target = (graph.owner? target).map Node.plain := by
  have named (node : Node)
      : node.plain.text? FieldKey.requirement = node.text? FieldKey.requirement :=
    node.text?_plain (by decide) (by decide)
  rw [owner?, owner?, node?_plain]
  cases graph.node? target with
  | none => rfl
  | some node =>
      simp only [Option.map_some, Node.kind_plain, named]
      cases node.kind with
      | assertion => cases node.text? FieldKey.requirement <;> simp
      | requirement => rfl
      | code => rfl
      | test => rfl
      | journey => rfl

end Graph

-----------------------------------------------------------------------------------------
-- Assembly
-----------------------------------------------------------------------------------------

/-- The node of a plain requirement is the plain node. -/
theorem Assembly.requirementNode_plain (path : String) (block : Block)
    (requirement : Requirement)
    : requirementNode path block requirement.plain
      = (requirementNode path block requirement).plain := by
  rw [Node.plain, if_pos (kind_requirementNode path block requirement)]
  refine requirementNode_changed path block ⟨_, requirement.storedHash, _, rfl⟩ (fun key => ?_)
  rw [Std.ExtTreeMap.getElem?_map]
  by_cases marker : FieldKey.endMarker = key
  · rw [← marker, marker_requirementNode, marker_requirementNode]
    simp [FieldValue.plain, FieldKey.endMarker, FieldKey.body]
  · by_cases body : FieldKey.body = key
    · rw [← body, body_requirementNode, body_requirementNode]
      simp [FieldValue.plain]
    · have kept : FieldValue.plain key = id :=
        funext (FieldValue.plain_of_ne (Ne.symm body) (Ne.symm marker))
      rw [kept, Option.map_id_apply]
      simp only [requirementNode, Node.field_withField, Node.field_withText, if_neg marker,
        if_neg body]

theorem revision_plain : Revision Requirement.plain Node.plain where
  only requirement := ⟨_, requirement.storedHash, _, rfl⟩
  node := Assembly.requirementNode_plain
  other _ := Node.plain_of_other
  id := Node.id_plain
  source := Node.source_plain
  attach := Node.attach_plain

def ParsedFile.plain (file : ParsedFile) : ParsedFile :=
  { file with blocks := file.blocks.map Block.plain }

theorem ParsedFile.revised_plain (file : ParsedFile)
    : Assembly.FileRevised Requirement.plain file file.plain where
  path := rfl
  blocks := by
    rw [plain, List.map_map]
    rfl

namespace Graph

/-- Graphs that keep the same are equal. -/
theorem eq_of_node? {graph other : Graph} (node : ∀ id, other.node? id = graph.node? id)
    (edges : other.edges = graph.edges) (roots : other.roots = graph.roots)
    (duplicates : other.duplicates = graph.duplicates) (metrics : other.metrics = graph.metrics)
    (files : other.files = graph.files)
    : other = graph := by
  have nodes : other.nodes = graph.nodes := Std.ExtTreeMap.ext_getElem? node
  cases other
  cases graph
  subst nodes edges roots duplicates metrics files
  rfl

theorem plain_assemble (scheme : Scheme) (files : List ParsedFile)
    : (assemble scheme files).plain = assemble scheme (files.map ParsedFile.plain) := by
  have same : List.Forall₂ (Assembly.FileRevised Requirement.plain) files
      (files.map ParsedFile.plain) :=
    List.forall₂_map_right_iff.mpr (List.forall₂_same.mpr (fun file _ => file.revised_plain))
  obtain ⟨revised, roots⟩ := revised_assemble revision_plain scheme same
  refine eq_of_node? ?_ revised.edges.symm roots.symm revised.duplicates.symm ?_ ?_
  · intro id
    rw [node?_plain, revised.node]
  · exact (metrics_assemble scheme files).trans (metrics_assemble scheme _).symm
  · have facts : (assemble scheme files).plain.files = (assemble scheme files).files := rfl
    rw [facts, files_assemble, files_assemble, List.foldl_map]
    rfl

/-- Files that read the same but for layout give the same plain graph. -/
theorem plain_assemble_congr (scheme : Scheme) {files others : List ParsedFile}
    (same : others.map ParsedFile.plain = files.map ParsedFile.plain)
    : (assemble scheme others).plain = (assemble scheme files).plain := by
  rw [plain_assemble, plain_assemble, same]

end Graph

end Traceability
