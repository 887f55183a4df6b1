import Traceability.Proofs.Claim.Matching
import Traceability.Proofs.Graph.Assembly

/-! Assembly under a change of requirements.
Assembly hands the body, the stored hash and the closing marker of a requirement on to its node
and looks at none of them. So the graph of blocks in which these change is the graph of the
blocks with changed nodes.
-/

namespace Traceability

/-- A change of requirements that assembly does not see, and the change of nodes that comes with
it. -/
structure Revision (revise : Requirement → Requirement) (change : Node → Node) : Prop where
  only
    : ∀ requirement, ∃ body storedHash endMarker,
        revise requirement = { requirement with body, storedHash, endMarker }
  node
    : ∀ path block requirement,
        Assembly.requirementNode path block (revise requirement)
        = change (Assembly.requirementNode path block requirement)
  other : ∀ node, node.kind ≠ .requirement → change node = node
  id : ∀ node, (change node).id = node.id
  source : ∀ node, (change node).source = node.source
  attach
    : ∀ edge position node,
        change (node.attach edge position) = (change node).attach edge position

variable {revise : Requirement → Requirement} {change : Node → Node}

/-- The node of a changed requirement differs in attributes only. -/
theorem Assembly.requirementNode_changed (path : String) (block : Block)
    {requirement changed : Requirement}
    (only
      : ∃ body storedHash endMarker,
          changed = { requirement with body, storedHash, endMarker })
    {fields : Fields}
    (attributes
      : ∀ key : String, (requirementNode path block changed).fields[key]? = fields[key]?)
    : requirementNode path block changed
      = { requirementNode path block requirement with fields } := by
  obtain ⟨body, storedHash, endMarker, rfl⟩ := only
  obtain ⟨old, before⟩ := requirementNode_eq path block requirement
  obtain ⟨new, after⟩ :=
    requirementNode_eq path block { requirement with body, storedHash, endMarker }
  have same := Std.ExtTreeMap.ext_getElem? attributes
  rw [after] at same
  rw [after, before, ← same]

-----------------------------------------------------------------------------------------
-- Graphs
-----------------------------------------------------------------------------------------

namespace Graph

/-- The graph under assembly, and the one of the changed blocks. -/
structure Revised (change : Node → Node) (graph changed : Graph) : Prop where
  node : ∀ id, changed.node? id = (graph.node? id).map change
  edges : changed.edges = graph.edges
  duplicates : changed.duplicates = graph.duplicates

variable {graph changed : Graph}

theorem Revised.contains_eq (revised : graph.Revised change changed) (id : String)
    : changed.contains id = graph.contains id := by
  rw [Bool.eq_iff_iff, contains_iff, contains_iff, revised.node]
  cases graph.node? id <;> simp

theorem Revised.addNode (revised : graph.Revised change changed) (revision : Revision revise change)
    (node : Node)
    : (graph.addNode node).Revised change (changed.addNode (change node)) where
  node id := by
    rw [node?_addNode, node?_addNode, revised.node, revision.id]
    cases graph.node? id with
    | some old => rfl
    | none =>
        rw [Option.map_none, Option.none_or, Option.none_or]
        split <;> rfl
  edges := by rw [edges_addNode, edges_addNode, revised.edges]
  duplicates := by
    rw [duplicates_addNode, duplicates_addNode, revision.id, revision.source,
      revised.node, revised.duplicates, Option.map_map]
    congr 3
    funext existing
    rw [Function.comp_apply, revision.source]

/-- A node that is no requirement is added as it is. -/
theorem Revised.addOther (revised : graph.Revised change changed)
    (revision : Revision revise change) (node : Node) (other : node.kind ≠ .requirement)
    : (graph.addNode node).Revised change (changed.addNode node) := by
  have added := revised.addNode revision node
  rwa [revision.other node other] at added

theorem Revised.addEdge (revised : graph.Revised change changed)
    (revision : Revision revise change) (edge : Edge)
    : (graph.addEdge edge).Revised change (changed.addEdge edge) := by
  have same : changed.position? edge = graph.position? edge := by
    rw [position?, position?, revised.edges]
  cases new : (graph.position? edge).isSome with
  | true =>
      rw [addEdge_of_present new, addEdge_of_present (same ▸ new)]
      exact revised
  | false =>
      have newToo : (changed.position? edge).isSome = false := same ▸ new
      constructor
      · intro id
        rw [node?_addEdge new, node?_addEdge newToo, revised.node, revised.edges,
          Option.map_map, Option.map_map]
        congr 1
        funext node
        exact (revision.attach edge graph.edges.size node).symm
      · rw [edges_addEdge new, edges_addEdge newToo, revised.edges]
      · rw [duplicates_addEdge, duplicates_addEdge, revised.duplicates]

theorem Revised.foldl_addEdge (revised : graph.Revised change changed)
    (revision : Revision revise change) (edges : List Edge)
    : (edges.foldl Graph.addEdge graph).Revised change (edges.foldl Graph.addEdge changed) := by
  induction edges generalizing graph changed with
  | nil => exact revised
  | cons edge rest ih => exact ih (revised.addEdge revision edge)

end Graph

-----------------------------------------------------------------------------------------
-- Blocks
-----------------------------------------------------------------------------------------

namespace Assembly

/-- The assembly under way, and the one of the changed blocks. -/
structure Revised (change : Node → Node) (assembly changed : Assembly) : Prop where
  graph : assembly.graph.Revised change changed.graph
  pending : changed.pending = assembly.pending
  roots : changed.roots = assembly.roots

variable {assembly changed : Assembly}

theorem revised_addAssertion {graph changed : Graph} (revised : graph.Revised change changed)
    (revision : Revision revise change) (path requirement : String) (assertion : Assertion)
    : (addAssertion path requirement graph assertion).Revised change
        (addAssertion path requirement changed assertion) := by
  have added := revised.addOther revision (assertionNode path requirement assertion)
    NodeKind.noConfusion
  rw [addAssertion, addAssertion, revised.contains_eq]
  split
  · exact added
  · exact added.addEdge revision _

theorem revised_foldl_addAssertion {graph changed : Graph}
    (revised : graph.Revised change changed) (revision : Revision revise change)
    (path requirement : String) (assertions : List Assertion)
    : (assertions.foldl (addAssertion path requirement) graph).Revised change
        (assertions.foldl (addAssertion path requirement) changed) := by
  induction assertions generalizing graph changed with
  | nil => exact revised
  | cons assertion rest ih =>
      exact ih (revised_addAssertion revised revision path requirement assertion)

theorem Revised.addRequirement (revised : assembly.Revised change changed)
    (revision : Revision revise change) (path : String) (block : Block)
    (requirement : Requirement)
    : (addRequirement path assembly block requirement).Revised change
        (addRequirement path changed (block.revise revise) (revise requirement)) := by
  have node : requirementNode path (block.revise revise) (revise requirement)
      = change (requirementNode path block requirement) := revision.node path block requirement
  have added := revised.graph.addNode revision (requirementNode path block requirement)
  have taken := revised.graph.contains_eq (requirementNode path block requirement).id
  rw [Assembly.addRequirement, Assembly.addRequirement, node, revision.id, taken]
  obtain ⟨body, storedHash, endMarker, only⟩ := revision.only requirement
  split
  · exact ⟨added, revised.pending, revised.roots⟩
  · rw [only]
    constructor
    · exact revised_foldl_addAssertion added revision path requirement.id requirement.assertions
    · exact congrArg (· ++ declared block requirement) revised.pending
    · simp only [revised.roots]

/-- A node that is no requirement, with references read from it. -/
theorem Revised.addReference (revised : assembly.Revised change changed)
    (revision : Revision revise change) {nodeKind : NodeKind}
    (other : nodeKind ≠ .requirement) (edgeKind : EdgeKind) (path : String) (block : Block)
    (reference : Reference)
    : (addReference nodeKind edgeKind path assembly block reference).Revised change
        (addReference nodeKind edgeKind path changed (block.revise revise) reference) := by
  have node : referenceNode nodeKind path (block.revise revise) reference
      = referenceNode nodeKind path block reference := rfl
  have added := revised.graph.addOther revision (referenceNode nodeKind path block reference) other
  rw [Assembly.addReference, Assembly.addReference, node, revised.graph.contains_eq]
  split
  · exact ⟨added, revised.pending, revised.roots⟩
  · exact ⟨added, congrArg (· ++ _) revised.pending, revised.roots⟩

theorem Revised.addBlock (revised : assembly.Revised change changed)
    (revision : Revision revise change) (path : String) (block : Block)
    : (addBlock path assembly block).Revised change
        (addBlock path changed (block.revise revise)) := by
  have held : (block.revise revise).content = block.content.revise revise := rfl
  rw [Assembly.addBlock, Assembly.addBlock, held]
  cases block.content with
  | requirement requirement => exact revised.addRequirement revision path block requirement
  | journey journey =>
      have other : (journeyNode path block journey).kind ≠ .requirement := by
        rw [(journeyNode_parts path block journey).2]
        exact NodeKind.noConfusion
      exact ⟨revised.graph.addOther revision _ other, revised.pending, revised.roots⟩
  | codeReference reference =>
      exact revised.addReference revision NodeKind.noConfusion _ path block reference
  | testReference reference =>
      exact revised.addReference revision NodeKind.noConfusion _ path block reference
  | comment text decorative => exact revised
  | remainder => exact revised

theorem Revised.foldl_addBlock (revised : assembly.Revised change changed)
    (revision : Revision revise change) (path : String) {blocks others : List Block}
    (same : others.map Block.bare = blocks.map (Block.revise revise))
    : (blocks.foldl (Assembly.addBlock path) assembly).Revised change
        (others.foldl (Assembly.addBlock path) changed) := by
  induction blocks generalizing others assembly changed with
  | nil =>
      obtain rfl := List.map_eq_nil_iff.mp same
      exact revised
  | cons block rest ih =>
      cases others with
      | nil => exact absurd same (by simp)
      | cons other more =>
          obtain ⟨first, later⟩ := List.cons.inj same
          have text : Assembly.addBlock path changed other
              = Assembly.addBlock path changed other.bare := rfl
          rw [List.foldl_cons, List.foldl_cons, text, first]
          exact ih (revised.addBlock revision path block) later

/-- A file and one at the same path in which nothing but requirements may have changed. -/
structure FileRevised (revise : Requirement → Requirement) (file changed : ParsedFile) : Prop where
  path : changed.path = file.path
  blocks : changed.blocks.map Block.bare = file.blocks.map (Block.revise revise)

theorem Revised.addFile (revised : assembly.Revised change changed)
    (revision : Revision revise change) {file other : ParsedFile}
    (same : FileRevised revise file other)
    : (addFile assembly file).Revised change (addFile changed other) := by
  have added := revised.foldl_addBlock revision file.path same.blocks
  rw [Assembly.addFile, Assembly.addFile, same.path]
  exact ⟨⟨added.graph.node, added.graph.edges, added.graph.duplicates⟩, added.pending,
    added.roots⟩

theorem Revised.foldl_addFile (revised : assembly.Revised change changed)
    (revision : Revision revise change) {files others : List ParsedFile}
    (same : List.Forall₂ (FileRevised revise) files others)
    : (files.foldl Assembly.addFile assembly).Revised change
        (others.foldl Assembly.addFile changed) := by
  induction same generalizing assembly changed with
  | nil => exact revised
  | cons first _ ih => exact ih (revised.addFile revision first)

theorem Revised.finish (revised : assembly.Revised change changed)
    (revision : Revision revise change) (scheme : Scheme)
    : (assembly.finish scheme).Revised change (changed.finish scheme)
      ∧ (changed.finish scheme).roots = (assembly.finish scheme).roots := by
  have edges := revised.graph.foldl_addEdge revision
    (assembly.pending.flatMap (PendingReference.edges scheme))
  rw [Assembly.finish, Assembly.finish, revised.pending]
  exact ⟨⟨edges.node, edges.edges, edges.duplicates⟩, revised.roots⟩

end Assembly

/-- The graph of files with changed requirements has the edges of the graph of the files, and its
nodes with the change. -/
theorem Graph.revised_assemble (revision : Revision revise change) (scheme : Scheme)
    {files others : List ParsedFile}
    (same : List.Forall₂ (Assembly.FileRevised revise) files others)
    : (Graph.assemble scheme files).Revised change (Graph.assemble scheme others)
      ∧ (Graph.assemble scheme others).roots = (Graph.assemble scheme files).roots := by
  have start : ({} : Assembly).Revised change {} :=
    ⟨⟨fun id => by simp [node?], rfl, rfl⟩, rfl, rfl⟩
  exact (start.foldl_addFile revision same).finish revision scheme

end Traceability
