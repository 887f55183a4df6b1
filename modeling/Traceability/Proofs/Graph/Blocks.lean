import Traceability.Proofs.Graph.Assembly

/-! What one block adds to a graph under assembly.
The graph grows block by block, whatever waits to be resolved. So what every block preserves
holds of the graph before its references become edges.
-/

namespace Traceability

namespace Assembly

/-- The nodes that a block declares. A requirement comes with its assertions. -/
def nodesOf (path : String) (block : Block) : List Node :=
  match block.content with
  | .requirement requirement =>
      requirementNode path block requirement
        :: requirement.assertions.map (assertionNode path requirement.id)
  | .journey journey => [journeyNode path block journey]
  | .codeReference reference => [referenceNode .code path block reference]
  | .testReference reference => [referenceNode .test path block reference]
  | .comment _ _ => []
  | .remainder => []

/-- Only requirement blocks declare requirements, one each. -/
theorem requirement_of_mem_nodesOf {path : String} {block : Block} {entry : Node}
    (member : entry ∈ nodesOf path block) (kind : entry.kind = .requirement)
    : ∃ requirement,
        block.content = .requirement requirement
        ∧ entry = requirementNode path block requirement := by
  rw [nodesOf] at member
  split at member
  · next requirement content =>
      rcases List.mem_cons.mp member with rfl | lettered
      · exact ⟨requirement, content, rfl⟩
      · obtain ⟨assertion, -, rfl⟩ := List.mem_map.mp lettered
        exact absurd kind NodeKind.noConfusion
  · rw [List.mem_singleton.mp member, (journeyNode_parts path block _).2] at kind
    exact absurd kind NodeKind.noConfusion
  · rw [List.mem_singleton.mp member] at kind
    exact absurd kind NodeKind.noConfusion
  · rw [List.mem_singleton.mp member] at kind
    exact absurd kind NodeKind.noConfusion
  · exact absurd member List.not_mem_nil
  · exact absurd member List.not_mem_nil

/-- What a block does to the graph. Only a requirement brings further nodes and edges along, and
none if its identifier is taken. -/
inductive Adds (path : String) (block : Block) (graph : Graph) : Graph → Prop
  | nothing
    : Adds path block graph graph
  | duplicate {node : Node} (taken : graph.contains node.id = true)
    : Adds path block graph (graph.addNode node)
  | journey {journey : Journey} (content : block.content = .journey journey)
    : Adds path block graph (graph.addNode (journeyNode path block journey))
  | reference {kind : NodeKind} {reference : Reference}
    (content
      : kind = .code ∧ block.content = .codeReference reference
        ∨ kind = .test ∧ block.content = .testReference reference)
    : Adds path block graph (graph.addNode (referenceNode kind path block reference))
  | requirement {requirement : Requirement} (content : block.content = .requirement requirement)
    (new : graph.contains requirement.id = false)
    : Adds path block graph
        (requirement.assertions.foldl (addAssertion path requirement.id)
          (graph.addNode (requirementNode path block requirement)))

theorem adds_addReference (path : String) (assembly : Assembly) {block : Block}
    {nodeKind : NodeKind} {reference : Reference}
    (content
      : nodeKind = .code ∧ block.content = .codeReference reference
        ∨ nodeKind = .test ∧ block.content = .testReference reference)
    (edgeKind : EdgeKind)
    : Adds path block assembly.graph
        (addReference nodeKind edgeKind path assembly block reference).graph := by
  rw [addReference]
  split
  · next taken => exact .duplicate taken
  · exact .reference content

theorem adds_addBlock (path : String) (assembly : Assembly) (block : Block)
    : Adds path block assembly.graph (addBlock path assembly block).graph := by
  rw [addBlock]
  split
  · next requirement content =>
      simp only [addRequirement]
      split
      · next taken => exact .duplicate taken
      · next new =>
          rw [id_requirementNode, Bool.not_eq_true] at new
          exact .requirement content new
  · next journey content => exact .journey content
  · next reference content => exact adds_addReference path assembly (Or.inl ⟨rfl, content⟩) _
  · next reference content => exact adds_addReference path assembly (Or.inr ⟨rfl, content⟩) _
  · exact .nothing
  · exact .nothing

/-- What nodes and edges preserve is preserved by a block. -/
theorem Adds.preserves {motive : Graph → Prop} {path : String} {block : Block}
    {graph next : Graph} (adds : Adds path block graph next)
    (node : ∀ graph node, motive graph → motive (graph.addNode node))
    (edge : ∀ graph edge, motive graph → motive (graph.addEdge edge)) (holds : motive graph)
    : motive next := by
  cases adds with
  | nothing => exact holds
  | duplicate taken => exact node graph _ holds
  | journey content => exact node graph _ holds
  | reference content => exact node graph _ holds
  | requirement content new =>
      refine List.foldlRecOn _ _ (node graph _ holds) (fun current here assertion _ => ?_)
      rw [addAssertion]
      split
      · exact node current _ here
      · exact edge _ _ (node current _ here)

/-- What a block adds are the nodes that it declares. -/
theorem Adds.mem_nodesOf {path : String} {block : Block} {graph next : Graph}
    (adds : Adds path block graph next) {id : String} {entry : Node}
    (found : next.bare? id = some entry)
    : graph.bare? id = some entry ∨ entry ∈ nodesOf path block := by
  cases adds with
  | nothing => exact Or.inl found
  | @duplicate node taken =>
      refine Or.inl ?_
      obtain ⟨existing, present⟩ := Graph.contains_iff.mp taken
      rw [Graph.addNode, present] at found
      exact found
  | journey content =>
      rw [nodesOf, content]
      refine (Graph.bare?_addNode_cases found).imp_right (fun own => ?_)
      rw [← own, bare_journeyNode]
      exact List.mem_singleton_self _
  | reference content =>
      refine (Graph.bare?_addNode_cases found).imp_right (fun own => ?_)
      rcases content with ⟨rfl, content⟩ | ⟨rfl, content⟩ <;> rw [nodesOf, content, ← own]
        <;> exact List.mem_singleton_self _
  | requirement content new =>
      rw [nodesOf, content]
      rcases bare?_foldl_addAssertion _ found with here | ⟨assertion, member, rfl⟩
      · refine (Graph.bare?_addNode_cases here).imp_right (fun own => ?_)
        rw [← own, bare_requirementNode]
        exact List.mem_cons_self
      · exact Or.inr (List.mem_cons_of_mem _ (List.mem_map_of_mem member))

/-- What holds of the empty graph and is preserved by every block holds of the graph of all nodes.
Witness: induction along the files and their blocks. -/
theorem foldl_addFile_induction {motive : Graph → Prop} {files : List ParsedFile}
    (empty : motive {})
    (record : ∀ graph path facts, motive graph → motive (graph.recordFile path facts))
    (add
      : ∀ file ∈ files, ∀ block ∈ file.blocks, ∀ graph next,
          Adds file.path block graph next → motive graph → motive next)
    : motive (files.foldl addFile {}).graph := by
  refine List.foldlRecOn (motive := fun assembly : Assembly => motive assembly.graph) _ _ empty ?_
  intro assembly here file member
  refine record _ _ _ ?_
  refine List.foldlRecOn (motive := fun assembly : Assembly => motive assembly.graph) _ _ here ?_
  intro current holds block own
  exact add file member block own current.graph _ (adds_addBlock file.path current block) holds

/-- What holds of the graph of all nodes and is preserved by the edges of the references that wait
holds of the assembled graph. -/
theorem finish_induction {motive : Graph → Prop} {scheme : Scheme} {assembly : Assembly}
    (nodes : motive assembly.graph)
    (edge
      : ∀ graph, motive graph → ∀ reference ∈ assembly.pending,
          ∀ edge ∈ reference.edges scheme, motive (graph.addEdge edge))
    (roots : ∀ (graph : Graph) roots, motive graph → motive { graph with roots })
    : motive (assembly.finish scheme) := by
  refine roots _ _ (List.foldlRecOn _ _ nodes (fun graph holds next member => ?_))
  obtain ⟨reference, waiting, own⟩ := List.mem_flatMap.mp member
  exact edge graph holds reference waiting next own

end Assembly

/-- What holds of the empty graph and is preserved by every step of assembly holds of the
assembled graph. -/
theorem Graph.assemble_induction {motive : Graph → Prop} {scheme : Scheme}
    {files : List ParsedFile} (empty : motive {})
    (node : ∀ graph node, motive graph → motive (graph.addNode node))
    (edge : ∀ graph edge, motive graph → motive (graph.addEdge edge))
    (record : ∀ graph path facts, motive graph → motive (graph.recordFile path facts))
    (roots : ∀ (graph : Graph) roots, motive graph → motive { graph with roots })
    : motive (assemble scheme files) := by
  refine Assembly.finish_induction ?_ (fun graph holds _ _ next _ => edge graph next holds) roots
  exact Assembly.foldl_addFile_induction empty record
    (fun _ _ _ _ _ _ adds holds => adds.preserves node edge holds)

/-- No metrics are recorded during assembly. -/
theorem Graph.metrics_assemble (scheme : Scheme) (files : List ParsedFile)
    : (assemble scheme files).metrics = ∅ :=
  assemble_induction (motive := fun graph => graph.metrics = ∅) rfl
    (fun graph node none => (graph.metrics_addNode node).trans none)
    (fun graph edge none => (graph.metrics_addEdge edge).trans none)
    (fun _ _ _ none => none) (fun _ _ none => none)

/-- Edges leave the entries of all nodes alone. -/
theorem Graph.bare?_finish (scheme : Scheme) (assembly : Assembly) (id : String)
    : (assembly.finish scheme).bare? id = assembly.graph.bare? id :=
  bare?_foldl_addEdge _ _ id

/-- Every node of an assembled graph was declared by a block of one of the files. -/
theorem Graph.exists_block {scheme : Scheme} {files : List ParsedFile} {id : String}
    {entry : Node} (found : (Graph.assemble scheme files).bare? id = some entry)
    : ∃ file ∈ files, ∃ block ∈ file.blocks, entry ∈ Assembly.nodesOf file.path block := by
  rw [Graph.assemble, bare?_finish] at found
  revert id entry
  refine Assembly.foldl_addFile_induction (motive := fun graph => ∀ {id entry},
    graph.bare? id = some entry →
      ∃ file ∈ files, ∃ block ∈ file.blocks, entry ∈ Assembly.nodesOf file.path block) ?_ ?_ ?_
  · intro id entry found
    simp [bare?, node?] at found
  · intro graph path facts known
    exact known
  · intro file member block own graph next adds known id entry found
    rcases adds.mem_nodesOf found with old | new
    · exact known old
    · exact ⟨file, member, block, own, new⟩

end Traceability
