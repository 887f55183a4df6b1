import Traceability.Proofs.Graph.Records

/-! What accepted records leave in a graph.
Under each identifier stands a node of an accepted record, and every edge is a link of an accepted
record or belongs to a reference that one writes. Conversely, the node of an accepted record is
found, and each of its references has its edges in the graph.
-/

namespace Traceability

namespace Record

/-- The references that a record writes. -/
def references (record : Record) : List PendingReference :=
  Assembly.referencesOf record.path record.block

/-- The edges of a record between its own nodes. -/
def links (record : Record) : List Edge :=
  Assembly.linksOf record.block

end Record

-----------------------------------------------------------------------------------------
-- The nodes of accepted records
-----------------------------------------------------------------------------------------

namespace Intake

/-- The first node of an identifier belongs to an accepted record, and the node of an accepted
record is the first of its identifier. -/
structure Indexed (intake : Intake) : Prop where
  complete : intake.Complete
  owned
    : ∀ id node, intake.offered.find? (fun other => other.id = id) = some node →
        ∃ record ∈ intake.accepted, node ∈ record.nodes
  first
    : ∀ record ∈ intake.accepted, ∀ node, record.nodes.head? = some node →
        intake.offered.find? (fun other => other.id = node.id) = some node

variable {intake : Intake} {record : Record}

theorem accepted_take (intake : Intake) (record : Record)
    : (intake.take record).accepted
      = if record.isNew intake.accepted then intake.accepted ++ [record]
        else intake.accepted := by
  rw [take]
  split <;> rfl

/-- A new record is found under its identifier. Witness: no earlier node has it. -/
theorem Indexed.find?_of_isNew (indexed : intake.Indexed)
    (isNew : record.isNew intake.accepted = true) {node : Node}
    (own : record.nodes.head? = some node)
    : (intake.offered ++ record.nodes).find? (fun other => other.id = node.id) = some node := by
  have free : node.id ∉ intake.offered.map Node.id := by
    rw [indexed.complete node.id]
    exact (Record.isNew_iff own).mp isNew
  have none : intake.offered.find? (fun other => other.id = node.id) = none := by
    refine List.find?_eq_none.mpr (fun other member same => free ?_)
    exact of_decide_eq_true same ▸ List.mem_map_of_mem member
  obtain ⟨rest, nodes⟩ := List.head?_eq_some_iff.mp own
  rw [List.find?_append, none, Option.none_or, nodes]
  exact List.find?_cons_of_pos (decide_eq_true rfl)

/-- A refused record is not found. Witness: its identifier is defined already. -/
theorem Indexed.find?_of_refused (indexed : intake.Indexed)
    (refused : ¬ record.isNew intake.accepted = true) (id : String)
    : (intake.offered ++ record.nodes.take 1).find? (fun other => other.id = id)
      = intake.offered.find? (fun other => other.id = id) := by
  rw [List.find?_append, List.take_one]
  cases absent : intake.offered.find? (fun other => other.id = id) with
  | some earlier => rfl
  | none =>
      rw [Option.none_or]
      cases own : record.nodes.head? with
      | none => rfl
      | some node =>
          rw [Record.isNew_iff own, not_not, ← indexed.complete node.id] at refused
          obtain ⟨earlier, member, same⟩ := List.mem_map.mp refused
          have differs := List.find?_eq_none.mp absent earlier member
          rw [same] at differs
          rw [Option.toList_some, List.find?_singleton, if_neg differs]

theorem Indexed.take (indexed : intake.Indexed) (record : Record)
    : (intake.take record).Indexed where
  complete := indexed.complete.take record
  owned id node found := by
    rw [Intake.take] at found ⊢
    split at found
    · next isNew =>
        rw [if_pos isNew]
        rw [List.find?_append, Option.or_eq_some_iff] at found
        rcases found with old | ⟨-, own⟩
        · obtain ⟨other, member, declared⟩ := indexed.owned id node old
          exact ⟨other, List.mem_append_left _ member, declared⟩
        · exact ⟨record, List.mem_append_right _ (List.mem_singleton.mpr rfl),
            List.mem_of_find?_eq_some own⟩
    · next refused =>
        rw [if_neg refused]
        rw [indexed.find?_of_refused refused] at found
        exact indexed.owned id node found
  first other member node own := by
    rw [Intake.take] at member ⊢
    split at member
    · next isNew =>
        rw [if_pos isNew]
        rcases List.mem_append.mp member with old | single
        · rw [List.find?_append, indexed.first other old node own, Option.some_or]
        · rw [List.mem_singleton.mp single] at own
          exact indexed.find?_of_isNew isNew own
    · next refused =>
        rw [if_neg refused, indexed.find?_of_refused refused]
        exact indexed.first other member node own

theorem indexed_ofFiles (files : List ParsedFile) : (ofFiles files).Indexed := by
  have empty : ({} : Intake).Indexed := ⟨fun _ => Iff.rfl, by simp, by simp⟩
  exact List.foldlRecOn _ _ empty (fun _ indexed record _ => indexed.take record)

end Intake

-----------------------------------------------------------------------------------------
-- The references and links of accepted records
-----------------------------------------------------------------------------------------

namespace Assembly

theorem mem_edges_foldl_addAssertion {path requirement : String} {assertions : List Assertion}
    {graph : Graph} {edge : Edge}
    (member : edge ∈ (assertions.foldl (addAssertion path requirement) graph).edges)
    : edge ∈ graph.edges ∨ edge ∈ assertions.map (link requirement) := by
  induction assertions generalizing graph with
  | nil => exact Or.inl member
  | cons assertion rest ih =>
      rcases ih member with here | later
      · rw [addAssertion] at here
        split at here
        · rw [Graph.edges_addNode] at here
          exact Or.inl here
        · rcases Graph.mem_edges_addEdge here with old | rfl
          · rw [Graph.edges_addNode] at old
            exact Or.inl old
          · exact Or.inr List.mem_cons_self
      · exact Or.inr (List.mem_cons_of_mem _ later)

/-- What waits in an assembly are the references of the accepted records, and its edges are
their links. -/
structure Writes (assembly : Assembly) (intake : Intake) : Prop where
  follows : assembly.Follows intake
  pending : assembly.pending = intake.accepted.flatMap Record.references
  links : ∀ edge ∈ assembly.graph.edges, edge ∈ intake.accepted.flatMap Record.links

variable {assembly next : Assembly} {intake : Intake} {record : Record}

/-- A record that is accepted. -/
theorem Writes.accept (writes : assembly.Writes intake)
    (follows : next.Follows (intake.take record)) (isNew : record.isNew intake.accepted = true)
    (pending : next.pending = assembly.pending ++ record.references)
    (edges : ∀ edge ∈ next.graph.edges, edge ∈ assembly.graph.edges ∨ edge ∈ record.links)
    : next.Writes (intake.take record) where
  follows := follows
  pending := by
    rw [pending, writes.pending, Intake.accepted_take, if_pos isNew, List.flatMap_append,
      List.flatMap_singleton]
  links edge member := by
    rw [Intake.accepted_take, if_pos isNew, List.flatMap_append, List.flatMap_singleton]
    refine List.mem_append.mpr ((edges edge member).imp_left ?_)
    exact writes.links edge

/-- A record that is refused. -/
theorem Writes.refuse (writes : assembly.Writes intake)
    (follows : next.Follows (intake.take record))
    (refused : ¬ record.isNew intake.accepted = true) (pending : next.pending = assembly.pending)
    (edges : next.graph.edges = assembly.graph.edges)
    : next.Writes (intake.take record) where
  follows := follows
  pending := by rw [pending, writes.pending, Intake.accepted_take, if_neg refused]
  links := by
    rw [edges, Intake.accepted_take, if_neg refused]
    exact writes.links

/-- A record that writes nothing, whether it is accepted or not. -/
theorem Writes.takePlain (writes : assembly.Writes intake)
    (follows : next.Follows (intake.take record)) (plain : record.references = [])
    (pending : next.pending = assembly.pending) (edges : next.graph.edges = assembly.graph.edges)
    : next.Writes (intake.take record) := by
  by_cases isNew : record.isNew intake.accepted = true
  · refine writes.accept follows isNew ?_ (fun edge member => Or.inl (edges ▸ member))
    rw [pending, plain, List.append_nil]
  · exact writes.refuse follows isNew pending edges

theorem Writes.addReference (writes : assembly.Writes intake) {nodeKind : NodeKind}
    {edgeKind : EdgeKind} {path : String} {block : Block} {reference : Reference}
    (follows
      : (addReference nodeKind edgeKind path assembly block reference).Follows
          (intake.take ⟨path, block⟩))
    (own
      : (⟨path, block⟩ : Record).nodes.head? = some (referenceNode nodeKind path block reference))
    (references
      : (⟨path, block⟩ : Record).references
        = reference.targets.map (fun target =>
            ⟨(referenceNode nodeKind path block reference).id, target.id, edgeKind, target.line⟩))
    : (addReference nodeKind edgeKind path assembly block reference).Writes
        (intake.take ⟨path, block⟩) := by
  have isNew := writes.follows.isNew_iff own
  rw [Assembly.addReference] at follows ⊢
  split at follows
  · next taken =>
      rw [if_pos taken]
      exact writes.refuse follows (fun new => isNew.mp new taken) rfl
        (Graph.edges_addNode assembly.graph _)
  · next free =>
      rw [if_neg free]
      refine writes.accept follows (isNew.mpr free) ?_ (fun edge member => Or.inl ?_)
      · rw [references]
      · exact Graph.edges_addNode assembly.graph _ ▸ member

theorem Writes.addRequirement (writes : assembly.Writes intake) {path : String} {block : Block}
    {requirement : Requirement}
    (follows
      : (addRequirement path assembly block requirement).Follows (intake.take ⟨path, block⟩))
    (content : block.content = .requirement requirement)
    : (addRequirement path assembly block requirement).Writes (intake.take ⟨path, block⟩) := by
  have own
      : (⟨path, block⟩ : Record).nodes.head? = some (requirementNode path block requirement) := by
    simp only [Record.nodes, nodesOf, content, List.head?_cons]
  have isNew := writes.follows.isNew_iff own
  simp only [Assembly.addRequirement] at follows ⊢
  split at follows
  · next taken =>
      rw [if_pos taken]
      exact writes.refuse follows (fun new => isNew.mp new taken) rfl
        (Graph.edges_addNode assembly.graph _)
  · next free =>
      rw [if_neg free]
      refine writes.accept follows (isNew.mpr free) ?_ (fun edge member => ?_)
      · simp only [Record.references, referencesOf, content]
      · rcases mem_edges_foldl_addAssertion member with old | linked
        · exact Or.inl (Graph.edges_addNode assembly.graph _ ▸ old)
        · refine Or.inr ?_
          simpa only [Record.links, linksOf, content] using linked

theorem Writes.addBlock (writes : assembly.Writes intake) (path : String) (block : Block)
    : (addBlock path assembly block).Writes (intake.take ⟨path, block⟩) := by
  have follows := writes.follows.addBlock path block
  cases content : block.content with
  | requirement requirement =>
      simp only [Assembly.addBlock, content] at follows ⊢
      exact writes.addRequirement follows content
  | journey journey =>
      simp only [Assembly.addBlock, content] at follows ⊢
      refine writes.takePlain follows ?_ rfl (Graph.edges_addNode assembly.graph _)
      simp only [Record.references, referencesOf, content]
  | codeReference reference =>
      simp only [Assembly.addBlock, content] at follows ⊢
      refine writes.addReference follows ?_ ?_
      · simp only [Record.nodes, nodesOf, content, List.head?_cons]
      · simp only [Record.references, referencesOf, content]
  | testReference reference =>
      simp only [Assembly.addBlock, content] at follows ⊢
      refine writes.addReference follows ?_ ?_
      · simp only [Record.nodes, nodesOf, content, List.head?_cons]
      · simp only [Record.references, referencesOf, content]
  | comment text decorative =>
      simp only [Assembly.addBlock, content] at follows ⊢
      refine writes.takePlain follows ?_ rfl rfl
      simp only [Record.references, referencesOf, content]
  | remainder =>
      simp only [Assembly.addBlock, content] at follows ⊢
      refine writes.takePlain follows ?_ rfl rfl
      simp only [Record.references, referencesOf, content]

theorem writes_ofFiles (files : List ParsedFile)
    : (files.foldl addFile {}).Writes (Intake.ofFiles files) := by
  have empty : ({} : Assembly).Writes {} :=
    ⟨⟨Graph.keeps_empty, fun _ => Iff.rfl⟩, rfl, fun _ member => absurd member (by simp)⟩
  refine ofFiles_induction empty (fun path block writes => writes.addBlock path block) ?_ files
  intro assembly intake path facts ⟨⟨⟨entries, duplicates⟩, complete⟩, pending, links⟩
  exact ⟨⟨⟨entries, duplicates⟩, complete⟩, pending, links⟩

end Assembly

-----------------------------------------------------------------------------------------
-- Assembled graphs
-----------------------------------------------------------------------------------------

theorem mem_foldl_insertEdge {edges more : List Edge} {edge : Edge}
    (member : edge ∈ more.foldl insertEdge edges)
    : edge ∈ edges ∨ edge ∈ more := by
  induction more generalizing edges with
  | nil => exact Or.inl member
  | cons first rest ih =>
      rcases ih member with here | later
      · rw [insertEdge] at here
        split at here
        · exact Or.inl here
        · rcases List.mem_append.mp here with old | single
          · exact Or.inl old
          · exact Or.inr (List.mem_singleton.mp single ▸ List.mem_cons_self)
      · exact Or.inr (List.mem_cons_of_mem first later)

/-- An edge is not lost as long as one that says the same is there. -/
theorem exists_same_of_mem_or {edges more : List Edge} {edge : Edge}
    (given : (∃ other ∈ edges, Edge.same edge other = true) ∨ edge ∈ more)
    : ∃ other ∈ more.foldl insertEdge edges, Edge.same edge other = true := by
  induction more generalizing edges with
  | nil => exact given.resolve_right List.not_mem_nil
  | cons first rest ih =>
      rw [List.foldl_cons]
      rcases given with ⟨other, member, same⟩ | member
      · refine ih (Or.inl ⟨other, ?_, same⟩)
        rw [insertEdge]
        split
        · exact member
        · exact List.mem_append_left _ member
      · rcases List.mem_cons.mp member with rfl | later
        · refine ih (Or.inl ?_)
          rw [insertEdge]
          split
          · next there => exact List.any_eq_true.mp there
          · exact ⟨edge, List.mem_append_right _ (List.mem_singleton.mpr rfl), by simp [Edge.same]⟩
        · exact ih (Or.inr later)

namespace Graph

variable {scheme : Scheme} {files : List ParsedFile} {record : Record}

theorem toList_edges_assemble (scheme : Scheme) (files : List ParsedFile)
    : (assemble scheme files).edges.toList
      = (((acceptedRecords files).flatMap Record.references).flatMap
          (PendingReference.edges scheme)).foldl insertEdge
          (files.foldl Assembly.addFile {}).graph.edges.toList := by
  rw [acceptedRecords, ← (Assembly.writes_ofFiles files).pending]
  exact toList_edges_foldl_addEdge _ _

/-- Every edge was written by an accepted record. -/
theorem exists_record_of_mem_edges {edge : Edge} (member : edge ∈ (assemble scheme files).edges)
    : ∃ record ∈ acceptedRecords files,
        edge ∈ record.links ∨ ∃ reference ∈ record.references, edge ∈ reference.edges scheme := by
  rw [← Array.mem_toList_iff, toList_edges_assemble] at member
  rcases mem_foldl_insertEdge member with own | written
  · have linked := (Assembly.writes_ofFiles files).links edge (Array.mem_toList_iff.mp own)
    obtain ⟨record, accepted, link⟩ := List.mem_flatMap.mp linked
    exact ⟨record, accepted, Or.inl link⟩
  · obtain ⟨reference, waiting, within⟩ := List.mem_flatMap.mp written
    obtain ⟨record, accepted, own⟩ := List.mem_flatMap.mp waiting
    exact ⟨record, accepted, Or.inr ⟨reference, own, within⟩⟩

/-- What an accepted record refers to is in the graph. -/
theorem exists_edge_of_reference (accepted : record ∈ acceptedRecords files)
    {reference : PendingReference} (own : reference ∈ record.references) {edge : Edge}
    (within : edge ∈ reference.edges scheme)
    : ∃ other ∈ (assemble scheme files).edges, Edge.same edge other = true := by
  have written : edge ∈ ((acceptedRecords files).flatMap Record.references).flatMap
      (PendingReference.edges scheme) :=
    List.mem_flatMap.mpr ⟨reference, List.mem_flatMap.mpr ⟨record, accepted, own⟩, within⟩
  obtain ⟨other, member, same⟩ := exists_same_of_mem_or (Or.inr written)
  rw [← toList_edges_assemble] at member
  exact ⟨other, Array.mem_toList_iff.mp member, same⟩

/-- Every edge of an assembled graph leaves a node. -/
theorem contains_source_assemble {edge : Edge} (member : edge ∈ (assemble scheme files).edges)
    : (assemble scheme files).contains edge.source = true := by
  obtain ⟨record, accepted, link | ⟨reference, own, within⟩⟩ := exists_record_of_mem_edges member
  · exact contains_assemble_iff.mpr ⟨record, accepted, Assembly.source_of_mem_linksOf link⟩
  · rw [Assembly.source_of_mem_edges within]
    exact contains_assemble_iff.mpr ⟨record, accepted, Assembly.source_of_mem_referencesOf own⟩

/-- An accepted record is found under its identifier. -/
theorem bare?_of_accepted (scheme : Scheme) (accepted : record ∈ acceptedRecords files)
    {node : Node} (own : record.nodes.head? = some node)
    : (assemble scheme files).bare? node.id = some node := by
  rw [(keeps_assemble scheme files).entries]
  exact (Intake.indexed_ofFiles files).first record accepted node own

/-- What is found belongs to an accepted record. -/
theorem exists_accepted_of_bare? {id : String} {node : Node}
    (found : (assemble scheme files).bare? id = some node)
    : ∃ record ∈ acceptedRecords files, node ∈ record.nodes := by
  rw [(keeps_assemble scheme files).entries] at found
  exact (Intake.indexed_ofFiles files).owned id node found

end Graph

end Traceability
