import Traceability.Proofs.Graph.Comparison

/-! What files declare.
If no identifier is declared twice, assembly keeps all that the blocks of the files declare, one
block after the other: their nodes, the links to assertions, the references that wait, and the
roots. The converse holds too, so whether a graph has duplicates is a matter of identifiers.
-/

namespace Traceability

namespace Assembly

-----------------------------------------------------------------------------------------
-- Blocks and files
-----------------------------------------------------------------------------------------

/-- The edge from a requirement to one of its assertions. -/
def link (requirement : String) (assertion : Assertion) : Edge where
  source := requirement
  target := assertionId requirement assertion.letter.toString
  kind := .contains
  line := assertion.line

/-- The edges that a block declares between its own nodes. -/
def linksOf (block : Block) : List Edge :=
  match block.content with
  | .requirement requirement => requirement.assertions.map (link requirement.id)
  | _ => []

/-- The references that a block leaves waiting. -/
def referencesOf (path : String) (block : Block) : List PendingReference :=
  let written (node : Node) (kind : EdgeKind) (target : Target) : PendingReference :=
    ⟨node.id, target.id, kind, target.line⟩
  match block.content with
  | .requirement requirement => declared block requirement
  | .codeReference reference =>
      reference.targets.map (written (referenceNode .code path block reference) .implements)
  | .testReference reference =>
      reference.targets.map (written (referenceNode .test path block reference) .validates)
  | _ => []

/-- The requirement of a block, if it declares no parent. -/
def rootsOf (block : Block) : List String :=
  match block.content with
  | .requirement requirement =>
      if requirement.implementsTargets.isEmpty && requirement.refinesTargets.isEmpty then
        [requirement.id]
      else []
  | _ => []

/-- A block links only nodes that it declares. -/
theorem source_of_mem_linksOf {path : String} {block : Block} {edge : Edge}
    (member : edge ∈ linksOf block)
    : edge.source ∈ (nodesOf path block).map Node.id := by
  rw [linksOf] at member
  split at member
  · next requirement content =>
      obtain ⟨assertion, -, rfl⟩ := List.mem_map.mp member
      rw [nodesOf, content]
      refine List.mem_map.mpr ⟨_, List.mem_cons_self, ?_⟩
      exact id_requirementNode path block requirement
  · exact absurd member List.not_mem_nil

/-- References are read from a node that the block declares. -/
theorem source_of_mem_referencesOf {path : String} {block : Block}
    {reference : PendingReference} (member : reference ∈ referencesOf path block)
    : reference.source ∈ (nodesOf path block).map Node.id := by
  simp only [referencesOf] at member
  split at member
  · next requirement content =>
      rw [nodesOf, content, source_of_mem_declared member]
      refine List.mem_map.mpr ⟨_, List.mem_cons_self, ?_⟩
      exact id_requirementNode path block requirement
  · next written content =>
      obtain ⟨target, -, rfl⟩ := List.mem_map.mp member
      rw [nodesOf, content]
      exact List.mem_map_of_mem (List.mem_singleton_self _)
  · next written content =>
      obtain ⟨target, -, rfl⟩ := List.mem_map.mp member
      rw [nodesOf, content]
      exact List.mem_map_of_mem (List.mem_singleton_self _)
  · exact absurd member List.not_mem_nil

end Assembly

namespace ParsedFile

def nodes (file : ParsedFile) : List Node :=
  file.blocks.flatMap (Assembly.nodesOf file.path)

def links (file : ParsedFile) : List Edge :=
  file.blocks.flatMap Assembly.linksOf

def references (file : ParsedFile) : List PendingReference :=
  file.blocks.flatMap (Assembly.referencesOf file.path)

def roots (file : ParsedFile) : List String :=
  file.blocks.flatMap Assembly.rootsOf

end ParsedFile

-----------------------------------------------------------------------------------------
-- Graphs that hold what was declared
-----------------------------------------------------------------------------------------

namespace Graph

/-- The graph keeps exactly these nodes and these edges, and no identifier was taken. -/
structure Holds (graph : Graph) (nodes : List Node) (links : List Edge) : Prop where
  entries : ∀ id entry, graph.bare? id = some entry ↔ entry ∈ nodes ∧ entry.id = id
  edges : graph.edges.toList = links
  closed : graph.Closed
  fresh : graph.duplicates = []

variable {graph : Graph} {nodes : List Node} {links : List Edge}

theorem holds_empty : ({} : Graph).Holds [] [] where
  entries id entry := by simp [bare?, node?]
  edges := rfl
  closed := closed_empty
  fresh := rfl

theorem Holds.contains_iff (holds : graph.Holds nodes links) {id : String}
    : graph.contains id = true ↔ id ∈ nodes.map Node.id := by
  rw [contains_iff_bare?, List.mem_map]
  simp only [holds.entries]

/-- A node whose identifier does not repeat is new. -/
theorem Holds.not_contains (holds : graph.Holds nodes links) {node : Node}
    (unique : ((nodes ++ [node]).map Node.id).Nodup)
    : graph.contains node.id = false := by
  rw [← Bool.not_eq_true, holds.contains_iff]
  rw [List.map_append, List.nodup_append] at unique
  exact fun member => unique.2.2 node.id member node.id (by simp) rfl

theorem Holds.addNode (holds : graph.Holds nodes links) {node : Node} (bare : node.bare = node)
    (unique : ((nodes ++ [node]).map Node.id).Nodup)
    : (graph.addNode node).Holds (nodes ++ [node]) links where
  entries id entry := by
    have new := holds.not_contains unique
    rw [bare?_addNode, Option.or_eq_some_iff, bare]
    rw [← Bool.not_eq_true, contains_iff_bare?] at new
    constructor
    · intro given
      rcases given with old | ⟨-, own⟩
      · obtain ⟨member, same⟩ := (holds.entries id entry).mp old
        exact ⟨List.mem_append_left _ member, same⟩
      · obtain ⟨same, new⟩ := Option.ite_none_right_eq_some.mp own
        obtain rfl := Option.some.inj new
        exact ⟨by simp, same⟩
    · intro given
      obtain ⟨member, rfl⟩ := given
      rcases List.mem_append.mp member with old | own
      · exact Or.inl ((holds.entries entry.id entry).mpr ⟨old, rfl⟩)
      · obtain rfl := List.mem_singleton.mp own
        refine Or.inr ⟨?_, if_pos rfl⟩
        cases absent : graph.bare? entry.id with
        | none => rfl
        | some other => exact absurd ⟨other, absent⟩ new
  edges := by
    rw [edges_addNode]
    exact holds.edges
  closed := holds.closed.addNode node
  fresh := duplicates_addNode_iff.mpr ⟨holds.fresh, holds.not_contains unique⟩

/-- An edge to a node to which none leads yet is added. -/
theorem Holds.addEdge (holds : graph.Holds nodes links) {edge : Edge}
    (source : graph.contains edge.source = true) (target : graph.contains edge.target = true)
    (new : ∀ other ∈ links, other.target ≠ edge.target)
    : (graph.addEdge edge).Holds nodes (links ++ [edge]) where
  entries id entry := by
    rw [bare?_addEdge]
    exact holds.entries id entry
  edges := by
    rw [toList_edges_addEdge, holds.edges, insertEdge, if_neg]
    rw [List.any_eq_true]
    intro given
    obtain ⟨other, member, same⟩ := given
    exact new other member (Edge.ends_of_same same).2.symm
  closed := holds.closed.addEdge source target
  fresh := (duplicates_addEdge graph edge).trans holds.fresh

theorem Holds.addAssertion (holds : graph.Holds nodes links) {path requirement : String}
    (present : graph.contains requirement = true) {assertion : Assertion}
    (unique : ((nodes ++ [Assembly.assertionNode path requirement assertion]).map Node.id).Nodup)
    : (Assembly.addAssertion path requirement graph assertion).Holds
        (nodes ++ [Assembly.assertionNode path requirement assertion])
        (links ++ [Assembly.link requirement assertion]) := by
  have new := holds.not_contains unique
  rw [Assembly.addAssertion, if_neg (Bool.not_eq_true _ ▸ new)]
  -- The ends of all edges are present, so none leads to the new node yet.
  refine (holds.addNode rfl unique).addEdge (contains_addNode.mpr (Or.inl present))
    (contains_addNode.mpr (Or.inr rfl)) (fun other member same => ?_)
  rw [← holds.edges, Array.mem_toList_iff] at member
  have there := (holds.closed other member).2
  rw [same] at there
  exact Bool.false_ne_true (new.symm.trans there)

theorem Holds.foldl_addAssertion {path requirement : String} (assertions : List Assertion)
    {graph : Graph} {nodes : List Node} {links : List Edge} (holds : graph.Holds nodes links)
    (present : graph.contains requirement = true)
    (unique
      : ((nodes ++ assertions.map (Assembly.assertionNode path requirement)).map Node.id).Nodup)
    : (assertions.foldl (Assembly.addAssertion path requirement) graph).Holds
        (nodes ++ assertions.map (Assembly.assertionNode path requirement))
        (links ++ assertions.map (Assembly.link requirement)) := by
  induction assertions generalizing graph nodes links with
  | nil => simpa using holds
  | cons assertion rest ih =>
      rw [List.map_cons, List.append_cons nodes] at unique
      rw [List.map_cons, List.map_cons, List.append_cons nodes, List.append_cons links]
      have first : ((nodes ++ [Assembly.assertionNode path requirement assertion]).map
          Node.id).Nodup := by
        rw [List.map_append] at unique
        exact (List.nodup_append.mp unique).1
      exact ih (holds.addAssertion present first)
        (Assembly.contains_addAssertion_of (Or.inl present)) unique

end Graph

-----------------------------------------------------------------------------------------
-- Assembly of what was declared
-----------------------------------------------------------------------------------------

namespace Assembly

/-- The assembly keeps exactly what was declared so far. -/
structure Collected (assembly : Assembly) (nodes : List Node) (links : List Edge)
    (references : List PendingReference) (roots : List String)
    : Prop where
  graph : assembly.graph.Holds nodes links
  pending : assembly.pending = references
  roots : assembly.roots = roots

variable {assembly : Assembly} {nodes : List Node} {links : List Edge}
  {references : List PendingReference} {roots : List String}

theorem collected_empty : ({} : Assembly).Collected [] [] [] [] :=
  ⟨Graph.holds_empty, rfl, rfl⟩

theorem Collected.addReference (collected : assembly.Collected nodes links references roots)
    {kind : NodeKind} {edgeKind : EdgeKind} {path : String} {block : Block}
    {reference : Reference}
    (unique : ((nodes ++ [referenceNode kind path block reference]).map Node.id).Nodup)
    : (addReference kind edgeKind path assembly block reference).Collected
        (nodes ++ [referenceNode kind path block reference]) links
        (references ++ reference.targets.map (fun target =>
          ⟨(referenceNode kind path block reference).id, target.id, edgeKind, target.line⟩))
        roots := by
  have new := collected.graph.not_contains unique
  rw [Assembly.addReference, if_neg (Bool.not_eq_true _ ▸ new)]
  exact ⟨collected.graph.addNode rfl unique, by rw [collected.pending], collected.roots⟩

theorem Collected.addRequirement (collected : assembly.Collected nodes links references roots)
    {path : String} {block : Block} {requirement : Requirement}
    (content : block.content = .requirement requirement)
    (unique : ((nodes ++ nodesOf path block).map Node.id).Nodup)
    : (addRequirement path assembly block requirement).Collected
        (nodes ++ nodesOf path block) (links ++ linksOf block)
        (references ++ referencesOf path block) (roots ++ rootsOf block) := by
  simp only [nodesOf, content] at unique
  simp only [nodesOf, linksOf, referencesOf, rootsOf, content]
  rw [List.append_cons nodes] at unique ⊢
  have first : ((nodes ++ [requirementNode path block requirement]).map Node.id).Nodup := by
    rw [List.map_append] at unique
    exact (List.nodup_append.mp unique).1
  have new := collected.graph.not_contains first
  have owner
      : (assembly.graph.addNode (requirementNode path block requirement)).contains
          requirement.id = true :=
    Graph.contains_addNode.mpr (Or.inr (id_requirementNode path block requirement))
  simp only [Assembly.addRequirement]
  rw [if_neg (Bool.not_eq_true _ ▸ new)]
  refine ⟨?_, by rw [collected.pending], ?_⟩
  · exact (collected.graph.addNode (bare_requirementNode path block requirement) first)
      |>.foldl_addAssertion requirement.assertions owner unique
  · simp only [collected.roots]
    split
    · rfl
    · rw [List.append_nil]

/-- A block whose identifiers are all new adds all that it declares. -/
theorem Collected.addBlock (collected : assembly.Collected nodes links references roots)
    {path : String} {block : Block} (unique : ((nodes ++ nodesOf path block).map Node.id).Nodup)
    : (addBlock path assembly block).Collected
        (nodes ++ nodesOf path block) (links ++ linksOf block)
        (references ++ referencesOf path block) (roots ++ rootsOf block) := by
  cases content : block.content with
  | requirement requirement =>
      rw [Assembly.addBlock, content]
      exact collected.addRequirement content unique
  | journey journey =>
      rw [nodesOf, content] at unique
      simp only [Assembly.addBlock, nodesOf, linksOf, referencesOf, rootsOf, content,
        List.append_nil]
      exact ⟨collected.graph.addNode (bare_journeyNode path block journey) unique,
        collected.pending, collected.roots⟩
  | codeReference reference =>
      rw [nodesOf, content] at unique
      simp only [Assembly.addBlock, nodesOf, linksOf, referencesOf, rootsOf, content,
        List.append_nil]
      exact collected.addReference unique
  | testReference reference =>
      rw [nodesOf, content] at unique
      simp only [Assembly.addBlock, nodesOf, linksOf, referencesOf, rootsOf, content,
        List.append_nil]
      exact collected.addReference unique
  | comment text decorative =>
      simpa only [Assembly.addBlock, nodesOf, linksOf, referencesOf, rootsOf, content,
        List.append_nil] using collected
  | remainder =>
      simpa only [Assembly.addBlock, nodesOf, linksOf, referencesOf, rootsOf, content,
        List.append_nil] using collected

-----------------------------------------------------------------------------------------
-- Identifiers that were taken
-----------------------------------------------------------------------------------------

/-- A block that adds no duplicate adds to a graph without duplicates. -/
theorem Adds.fresh_of {path : String} {block : Block} {graph next : Graph}
    (adds : Adds path block graph next) (fresh : next.duplicates = [])
    : graph.duplicates = [] := by
  cases adds with
  | nothing => exact fresh
  | duplicate taken => exact (Graph.duplicates_addNode_iff.mp fresh).1
  | journey content => exact (Graph.duplicates_addNode_iff.mp fresh).1
  | reference content => exact (Graph.duplicates_addNode_iff.mp fresh).1
  | requirement content new =>
      exact (Graph.duplicates_addNode_iff.mp (distinct_of_foldl_addAssertion _ fresh).1).1

theorem fresh_of_foldl_addBlock {path : String} {blocks : List Block}
    (fresh : (blocks.foldl (addBlock path) assembly).graph.duplicates = [])
    : assembly.graph.duplicates = [] := by
  induction blocks generalizing assembly with
  | nil => exact fresh
  | cons block rest ih => exact (adds_addBlock path assembly block).fresh_of (ih fresh)

theorem fresh_of_foldl_addFile {files : List ParsedFile}
    (fresh : (files.foldl addFile assembly).graph.duplicates = [])
    : assembly.graph.duplicates = [] := by
  induction files generalizing assembly with
  | nil => exact fresh
  | cons file rest ih =>
      have later : (addFile assembly file).graph.duplicates = [] := ih fresh
      exact fresh_of_foldl_addBlock later

theorem unique_of_addNode {graph : Graph} (holds : graph.Holds nodes links)
    (unique : (nodes.map Node.id).Nodup) {node : Node}
    (fresh : (graph.addNode node).duplicates = [])
    : ((nodes ++ [node]).map Node.id).Nodup := by
  have new := (Graph.duplicates_addNode_iff.mp fresh).2
  rw [← Bool.not_eq_true, holds.contains_iff] at new
  rw [List.map_append, List.map_singleton]
  refine List.nodup_append.mpr ⟨unique, List.nodup_singleton _, ?_⟩
  intro id member other single same
  rw [List.mem_singleton.mp single] at same
  exact new (same ▸ member)

/-- A requirement with its assertions adds no duplicate only if the identifiers of all of them
are new. -/
theorem unique_of_foldl_addAssertion {graph : Graph} (holds : graph.Holds nodes links)
    (unique : (nodes.map Node.id).Nodup) {path : String} {block : Block}
    {requirement : Requirement}
    (fresh
      : (requirement.assertions.foldl (addAssertion path requirement.id)
          (graph.addNode (requirementNode path block requirement))).duplicates = [])
    : ((nodes ++ requirementNode path block requirement
          :: requirement.assertions.map (assertionNode path requirement.id)).map Node.id).Nodup
      := by
  obtain ⟨first, letters, new⟩ := distinct_of_foldl_addAssertion _ fresh
  have owner := unique_of_addNode holds unique first
  have added := holds.addNode (bare_requirementNode path block requirement) owner
  have ids
      : (requirement.assertions.map (assertionNode path requirement.id)).map Node.id
        = (requirement.assertions.map (fun assertion => assertion.letter.toString)).map
            (assertionId requirement.id) := by
    rw [List.map_map, List.map_map]
    rfl
  rw [List.append_cons, List.map_append, List.nodup_append]
  refine ⟨owner, ?_, ?_⟩
  · rw [ids]
    exact letters.map (assertionId_injective requirement.id)
  · intro id member other lettered same
    obtain ⟨_, listed, rfl⟩ := List.mem_map.mp lettered
    obtain ⟨assertion, own, rfl⟩ := List.mem_map.mp listed
    rw [same] at member
    exact new assertion own (added.contains_iff.mpr member)

/-- A block adds no duplicate only if its identifiers are new and none of them repeats. -/
theorem Collected.unique_of_addBlock
    (collected : assembly.Collected nodes links references roots)
    (unique : (nodes.map Node.id).Nodup) {path : String} {block : Block}
    (fresh : (Assembly.addBlock path assembly block).graph.duplicates = [])
    : ((nodes ++ nodesOf path block).map Node.id).Nodup := by
  have reference {kind : NodeKind} {edgeKind : EdgeKind} {reference : Reference}
      (fresh
        : (Assembly.addReference kind edgeKind path assembly block reference).graph.duplicates
          = [])
      : ((nodes ++ [referenceNode kind path block reference]).map Node.id).Nodup := by
    rw [Assembly.addReference] at fresh
    split at fresh <;> exact unique_of_addNode collected.graph unique fresh
  cases content : block.content with
  | requirement requirement =>
      rw [Assembly.addBlock, content] at fresh
      simp only [Assembly.addRequirement] at fresh
      simp only [nodesOf, content]
      split at fresh
      · next taken =>
          have new := (Graph.duplicates_addNode_iff.mp fresh).2
          exact absurd (new.symm.trans taken) Bool.false_ne_true
      · exact unique_of_foldl_addAssertion collected.graph unique fresh
  | journey journey =>
      rw [Assembly.addBlock, content] at fresh
      simp only [nodesOf, content]
      exact unique_of_addNode collected.graph unique fresh
  | codeReference own =>
      rw [Assembly.addBlock, content] at fresh
      simp only [nodesOf, content]
      exact reference fresh
  | testReference own =>
      rw [Assembly.addBlock, content] at fresh
      simp only [nodesOf, content]
      exact reference fresh
  | comment text decorative => simpa only [nodesOf, content, List.append_nil] using unique
  | remainder => simpa only [nodesOf, content, List.append_nil] using unique

-----------------------------------------------------------------------------------------
-- Whole files
-----------------------------------------------------------------------------------------

theorem unique_of_append {more : List Node} (unique : ((nodes ++ more).map Node.id).Nodup)
    : (nodes.map Node.id).Nodup := by
  rw [List.map_append] at unique
  exact (List.nodup_append.mp unique).1

/-- Blocks one after the other add all that they declare if no identifier repeats. -/
theorem Collected.foldl_addBlock {path : String} (blocks : List Block) {assembly : Assembly}
    {nodes : List Node} {links : List Edge} {references : List PendingReference}
    {roots : List String} (collected : assembly.Collected nodes links references roots)
    (unique : ((nodes ++ blocks.flatMap (nodesOf path)).map Node.id).Nodup)
    : (blocks.foldl (Assembly.addBlock path) assembly).Collected
        (nodes ++ blocks.flatMap (nodesOf path)) (links ++ blocks.flatMap linksOf)
        (references ++ blocks.flatMap (referencesOf path)) (roots ++ blocks.flatMap rootsOf) := by
  induction blocks generalizing assembly nodes links references roots with
  | nil =>
      simp only [List.flatMap_nil, List.append_nil]
      exact collected
  | cons block rest ih =>
      simp only [List.foldl_cons, List.flatMap_cons, ← List.append_assoc] at unique ⊢
      exact ih (collected.addBlock (unique_of_append unique)) unique

theorem Collected.unique_of_foldl_addBlock {path : String} (blocks : List Block)
    {assembly : Assembly} {nodes : List Node} {links : List Edge}
    {references : List PendingReference} {roots : List String}
    (collected : assembly.Collected nodes links references roots)
    (unique : (nodes.map Node.id).Nodup)
    (fresh : (blocks.foldl (Assembly.addBlock path) assembly).graph.duplicates = [])
    : ((nodes ++ blocks.flatMap (nodesOf path)).map Node.id).Nodup := by
  induction blocks generalizing assembly nodes links references roots with
  | nil =>
      rw [List.flatMap_nil, List.append_nil]
      exact unique
  | cons block rest ih =>
      rw [List.flatMap_cons, ← List.append_assoc]
      have first := collected.unique_of_addBlock unique (fresh_of_foldl_addBlock fresh)
      exact ih (collected.addBlock first) first fresh

/-- The facts of a file are kept apart from nodes and edges. -/
theorem Collected.addFile (collected : assembly.Collected nodes links references roots)
    {file : ParsedFile} (unique : ((nodes ++ file.nodes).map Node.id).Nodup)
    : (Assembly.addFile assembly file).Collected (nodes ++ file.nodes) (links ++ file.links)
        (references ++ file.references) (roots ++ file.roots) := by
  have blocks := collected.foldl_addBlock file.blocks unique
  exact ⟨⟨blocks.graph.entries, blocks.graph.edges, blocks.graph.closed, blocks.graph.fresh⟩,
    blocks.pending, blocks.roots⟩

/-- Files one after the other add all that they declare if no identifier repeats. -/
theorem Collected.foldl_addFile (files : List ParsedFile) {assembly : Assembly}
    {nodes : List Node} {links : List Edge} {references : List PendingReference}
    {roots : List String} (collected : assembly.Collected nodes links references roots)
    (unique : ((nodes ++ files.flatMap ParsedFile.nodes).map Node.id).Nodup)
    : (files.foldl Assembly.addFile assembly).Collected
        (nodes ++ files.flatMap ParsedFile.nodes) (links ++ files.flatMap ParsedFile.links)
        (references ++ files.flatMap ParsedFile.references)
        (roots ++ files.flatMap ParsedFile.roots) := by
  induction files generalizing assembly nodes links references roots with
  | nil =>
      simp only [List.flatMap_nil, List.append_nil]
      exact collected
  | cons file rest ih =>
      simp only [List.foldl_cons, List.flatMap_cons, ← List.append_assoc] at unique ⊢
      exact ih (collected.addFile (unique_of_append unique)) unique

theorem Collected.unique_of_foldl_addFile (files : List ParsedFile) {assembly : Assembly}
    {nodes : List Node} {links : List Edge} {references : List PendingReference}
    {roots : List String} (collected : assembly.Collected nodes links references roots)
    (unique : (nodes.map Node.id).Nodup)
    (fresh : (files.foldl Assembly.addFile assembly).graph.duplicates = [])
    : ((nodes ++ files.flatMap ParsedFile.nodes).map Node.id).Nodup := by
  induction files generalizing assembly nodes links references roots with
  | nil =>
      rw [List.flatMap_nil, List.append_nil]
      exact unique
  | cons file rest ih =>
      rw [List.flatMap_cons, ← List.append_assoc]
      have within : (Assembly.addFile assembly file).graph.duplicates = [] :=
        fresh_of_foldl_addFile fresh
      have first := collected.unique_of_foldl_addBlock file.blocks unique within
      exact ih (collected.addFile first) first fresh

/-- References become edges in the order in which they were declared. -/
theorem Collected.finish (collected : assembly.Collected nodes links references roots)
    (scheme : Scheme)
    : (∀ id entry, (assembly.finish scheme).bare? id = some entry ↔ entry ∈ nodes ∧ entry.id = id)
      ∧ (assembly.finish scheme).edges.toList
        = (references.flatMap (PendingReference.edges scheme)).foldl insertEdge links
      ∧ (assembly.finish scheme).roots = roots := by
  refine ⟨fun id entry => ?_, ?_, collected.roots⟩
  · rw [Graph.bare?_finish]
    exact collected.graph.entries id entry
  · rw [← collected.pending, ← collected.graph.edges]
    exact Graph.toList_edges_foldl_addEdge _ _

theorem duplicates_finish (assembly : Assembly) (scheme : Scheme)
    : (assembly.finish scheme).duplicates = assembly.graph.duplicates := by
  refine finish_induction (motive := fun graph => graph.duplicates = assembly.graph.duplicates)
    rfl ?_ ?_
  · intro graph same _ _ edge _
    rw [Graph.duplicates_addEdge, same]
  · intro graph roots same
    exact same

-----------------------------------------------------------------------------------------
-- The facts of files
-----------------------------------------------------------------------------------------

/-- Blocks leave the facts of files alone. -/
theorem Adds.files {path : String} {block : Block} {graph next : Graph}
    (adds : Adds path block graph next)
    : next.files = graph.files :=
  adds.preserves (motive := fun next => next.files = graph.files)
    (fun current node same => (current.files_addNode node).trans same)
    (fun current edge same => (current.files_addEdge edge).trans same) rfl

theorem files_addFile (assembly : Assembly) (file : ParsedFile)
    : (addFile assembly file).graph.files
      = assembly.graph.files.insert file.path ⟨file.lineCount, file.suppressions⟩ := by
  have blocks
      : (file.blocks.foldl (addBlock file.path) assembly).graph.files = assembly.graph.files := by
    refine List.foldlRecOn (motive := fun next : Assembly =>
      next.graph.files = assembly.graph.files) _ _ rfl ?_
    intro current same block _
    rw [(adds_addBlock file.path current block).files, same]
  simp only [addFile, Graph.recordFile, blocks]

theorem files_finish (assembly : Assembly) (scheme : Scheme)
    : (assembly.finish scheme).files = assembly.graph.files := by
  refine finish_induction (motive := fun graph => graph.files = assembly.graph.files) rfl ?_ ?_
  · intro graph same _ _ edge _
    rw [Graph.files_addEdge, same]
  · intro graph roots same
    exact same

end Assembly

-----------------------------------------------------------------------------------------
-- Assembled graphs
-----------------------------------------------------------------------------------------

namespace Graph

/-- The facts of a file are recorded under its path. -/
theorem files_assemble (scheme : Scheme) (files : List ParsedFile)
    : (assemble scheme files).files
      = files.foldl (fun kept file => kept.insert file.path ⟨file.lineCount, file.suppressions⟩)
          ∅ := by
  rw [assemble, Assembly.files_finish]
  refine (List.foldl_hom (fun assembly : Assembly => assembly.graph.files) ?_).symm
  intro assembly file
  exact (Assembly.files_addFile assembly file).symm

/-- A graph has no duplicates exactly if the files declare no identifier twice. -/
theorem duplicates_assemble_iff (scheme : Scheme) (files : List ParsedFile)
    : (assemble scheme files).duplicates = []
      ↔ ((files.flatMap ParsedFile.nodes).map Node.id).Nodup := by
  rw [assemble, Assembly.duplicates_finish]
  constructor
  · intro fresh
    exact Assembly.collected_empty.unique_of_foldl_addFile files List.nodup_nil fresh
  · intro unique
    exact (Assembly.collected_empty.foldl_addFile files unique).graph.fresh

end Graph

end Traceability
