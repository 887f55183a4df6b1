import Traceability.Proofs.Graph.Declared

/-! Which records a graph takes in.
A block that declares nodes is a record. It is accepted unless an earlier record that was accepted
defines its identifier, and then its nodes are offered to the graph one after the other. Of a
refused record only the first node is, to be noted as a duplicate. So what a graph keeps and
what it notes can be read off the list of offered nodes.
-/

namespace Traceability

-----------------------------------------------------------------------------------------
-- Records and their acceptance
-----------------------------------------------------------------------------------------

/-- A block with the file in which it stands. -/
structure Record where
  path : String
  block : Block

namespace Record

/-- The nodes that a record declares, its own before those of its assertions. -/
def nodes (record : Record) : List Node :=
  Assembly.nodesOf record.path record.block

/-- The identifiers that a record defines. -/
def ids (record : Record) : List String :=
  record.nodes.map Node.id

/-- Whether no record of the list defines the identifier of this one. -/
def isNew (record : Record) (accepted : List Record) : Bool :=
  record.ids.head?.all (fun id => id ∉ accepted.flatMap ids)

theorem isNew_iff {record : Record} {node : Node} (own : record.nodes.head? = some node)
    {accepted : List Record}
    : record.isNew accepted = true ↔ node.id ∉ accepted.flatMap ids := by
  rw [isNew, ids, List.head?_map, own, Option.map_some, Option.all_some, decide_eq_true_eq]

end Record

/-- The records of a file, in the order of its blocks. -/
def ParsedFile.records (file : ParsedFile) : List Record :=
  file.blocks.map (fun block => ⟨file.path, block⟩)

/-- What was taken in so far: the records that were accepted, and the nodes that the graph was
offered. -/
structure Intake where
  accepted : List Record := []
  offered : List Node := []

namespace Intake

/-- Takes in a further record. -/
def take (intake : Intake) (record : Record) : Intake :=
  if record.isNew intake.accepted then
    { accepted := intake.accepted ++ [record], offered := intake.offered ++ record.nodes }
  else { intake with offered := intake.offered ++ record.nodes.take 1 }

def ofFiles (files : List ParsedFile) : Intake :=
  (files.flatMap ParsedFile.records).foldl take {}

/-- The accepted records define the identifiers of the offered nodes, and no others. -/
def Complete (intake : Intake) : Prop :=
  ∀ id, id ∈ intake.offered.map Node.id ↔ id ∈ intake.accepted.flatMap Record.ids

/-- Witness: the identifier of a refused record is defined already. -/
theorem Complete.take {intake : Intake} (complete : intake.Complete) (record : Record)
    : (intake.take record).Complete := by
  intro id
  rw [Intake.take]
  split
  · simp only [List.map_append, List.flatMap_append, List.mem_append, complete id,
      List.flatMap_singleton]
    rfl
  · next refused =>
      rw [List.map_append, List.mem_append, complete id]
      refine or_iff_left_of_imp (fun member => ?_)
      have ids : (record.nodes.take 1).map Node.id = record.ids.take 1 := List.map_take
      rw [ids] at member
      rw [Record.isNew] at refused
      cases own : record.ids with
      | nil => simp [own] at member
      | cons first rest =>
          simp only [own, List.head?_cons, Option.all_some, decide_eq_true_eq, not_not] at refused
          simp only [own, List.take_succ_cons, List.take_zero, List.mem_singleton] at member
          exact member ▸ refused

theorem complete_ofFiles (files : List ParsedFile) : (ofFiles files).Complete :=
  List.foldlRecOn _ _ (fun _ => Iff.rfl) (fun _ complete record _ => complete.take record)

end Intake

/-- The records that are accepted, file after file. -/
def acceptedRecords (files : List ParsedFile) : List Record :=
  (Intake.ofFiles files).accepted

-----------------------------------------------------------------------------------------
-- Graphs as lists of offered nodes
-----------------------------------------------------------------------------------------

/-- The duplicates among further nodes, each with the first node of its identifier. -/
def repeatsAfter (earlier : List Node) : List Node → List Duplicate
  | [] => []
  | node :: rest =>
      ((earlier.find? (fun first => first.id = node.id)).map (fun first =>
          (⟨node.id, first.source, node.source⟩ : Duplicate))).toList
        ++ repeatsAfter (earlier ++ [node]) rest

theorem repeatsAfter_append (earlier nodes more : List Node)
    : repeatsAfter earlier (nodes ++ more)
      = repeatsAfter earlier nodes ++ repeatsAfter (earlier ++ nodes) more := by
  induction nodes generalizing earlier with
  | nil => rw [List.append_nil]; rfl
  | cons node rest ih =>
      rw [List.cons_append, repeatsAfter, ih, repeatsAfter, List.append_assoc, List.append_assoc,
        List.singleton_append]

namespace Graph

/-- The graph keeps the first node of each identifier and notes the others as duplicates. -/
structure Keeps (graph : Graph) (offered : List Node) : Prop where
  entries : ∀ id, graph.bare? id = offered.find? (fun node => node.id = id)
  duplicates : graph.duplicates = repeatsAfter [] offered

variable {graph : Graph} {offered : List Node}

theorem keeps_empty : ({} : Graph).Keeps [] where
  entries id := by simp [bare?, node?]
  duplicates := rfl

theorem Keeps.contains_iff (keeps : graph.Keeps offered) {id : String}
    : graph.contains id = true ↔ id ∈ offered.map Node.id := by
  simp only [contains_iff_bare?, keeps.entries, ← Option.isSome_iff_exists, List.find?_isSome,
    List.mem_map, decide_eq_true_eq]

theorem Keeps.addNode (keeps : graph.Keeps offered) {node : Node} (bare : node.bare = node)
    : (graph.addNode node).Keeps (offered ++ [node]) where
  entries id := by
    rw [bare?_addNode, keeps.entries, bare, List.find?_append, List.find?_singleton]
    simp only [decide_eq_true_eq]
  duplicates := by
    rw [duplicates_addNode, keeps.duplicates, repeatsAfter_append, List.nil_append]
    congr 1
    rw [repeatsAfter, repeatsAfter, List.append_nil, ← keeps.entries, bare?, Option.map_map]
    rfl

theorem Keeps.addEdge (keeps : graph.Keeps offered) (edge : Edge)
    : (graph.addEdge edge).Keeps offered where
  entries id := (bare?_addEdge graph edge id).trans (keeps.entries id)
  duplicates := (duplicates_addEdge graph edge).trans keeps.duplicates

theorem Keeps.addAssertion (keeps : graph.Keeps offered) (path requirement : String)
    (assertion : Assertion)
    : (Assembly.addAssertion path requirement graph assertion).Keeps
        (offered ++ [Assembly.assertionNode path requirement assertion]) := by
  have added
      : (graph.addNode (Assembly.assertionNode path requirement assertion)).Keeps
          (offered ++ [Assembly.assertionNode path requirement assertion]) :=
    keeps.addNode rfl
  rw [Assembly.addAssertion]
  split
  · exact added
  · exact added.addEdge _

theorem Keeps.foldl_addAssertion (path requirement : String) (assertions : List Assertion)
    {graph : Graph} {offered : List Node} (keeps : graph.Keeps offered)
    : (assertions.foldl (Assembly.addAssertion path requirement) graph).Keeps
        (offered ++ assertions.map (Assembly.assertionNode path requirement)) := by
  induction assertions generalizing graph offered with
  | nil =>
      rw [List.map_nil, List.append_nil]
      exact keeps
  | cons assertion rest ih =>
      rw [List.foldl_cons, List.map_cons, List.append_cons]
      exact ih (keeps.addAssertion path requirement assertion)

end Graph

-----------------------------------------------------------------------------------------
-- Assembly takes records in
-----------------------------------------------------------------------------------------

namespace Assembly

/-- What was assembled is what was taken in. -/
structure Follows (assembly : Assembly) (intake : Intake) : Prop where
  keeps : assembly.graph.Keeps intake.offered
  complete : intake.Complete

variable {assembly : Assembly} {intake : Intake}

/-- The identifier of a record is free in the graph exactly if the record is accepted. -/
theorem Follows.isNew_iff (follows : assembly.Follows intake) {record : Record} {node : Node}
    (own : record.nodes.head? = some node)
    : record.isNew intake.accepted = true ↔ ¬ assembly.graph.contains node.id = true := by
  rw [follows.keeps.contains_iff, follows.complete node.id, Record.isNew_iff own]

/-- A record of one node is offered whether it is accepted or not. -/
theorem offered_take_of_single {path : String} {block : Block} {node : Node}
    (single : nodesOf path block = [node])
    : (intake.take ⟨path, block⟩).offered = intake.offered ++ [node] := by
  rw [Intake.take, Record.nodes, single]
  split <;> rfl

theorem Follows.addReference (follows : assembly.Follows intake) {nodeKind : NodeKind}
    {edgeKind : EdgeKind} {path : String} {block : Block} {reference : Reference}
    (single : nodesOf path block = [referenceNode nodeKind path block reference])
    : (addReference nodeKind edgeKind path assembly block reference).graph.Keeps
        (intake.take ⟨path, block⟩).offered := by
  rw [offered_take_of_single single, Assembly.addReference]
  split <;> exact follows.keeps.addNode rfl

/-- A requirement that is new brings its assertions along, and a refused one only itself. -/
theorem Follows.addRequirement (follows : assembly.Follows intake) {path : String} {block : Block}
    {requirement : Requirement} (content : block.content = .requirement requirement)
    : (addRequirement path assembly block requirement).graph.Keeps
        (intake.take ⟨path, block⟩).offered := by
  have nodes : (⟨path, block⟩ : Record).nodes
      = requirementNode path block requirement
        :: requirement.assertions.map (assertionNode path requirement.id) := by
    simp only [Record.nodes, nodesOf, content]
  have added := follows.keeps.addNode (bare_requirementNode path block requirement)
  have own
      : (⟨path, block⟩ : Record).nodes.head? = some (requirementNode path block requirement) := by
    rw [nodes, List.head?_cons]
  have isNew := follows.isNew_iff own
  simp only [Assembly.addRequirement, Intake.take, nodes]
  split
  · next taken =>
      rw [if_neg (fun new => isNew.mp new taken)]
      exact added
  · next free =>
      rw [if_pos (isNew.mpr free)]
      have lettered := added.foldl_addAssertion path requirement.id requirement.assertions
      rw [List.append_assoc, List.singleton_append] at lettered
      exact lettered

theorem Follows.addBlock (follows : assembly.Follows intake) (path : String) (block : Block)
    : (addBlock path assembly block).Follows (intake.take ⟨path, block⟩) where
  complete := follows.complete.take ⟨path, block⟩
  keeps := by
    have nothing (none : nodesOf path block = [])
        : assembly.graph.Keeps (intake.take ⟨path, block⟩).offered := by
      have offered : (intake.take ⟨path, block⟩).offered = intake.offered := by
        simp only [Intake.take, Record.nodes, none, List.take_nil, List.append_nil]
        split <;> rfl
      exact offered ▸ follows.keeps
    cases content : block.content with
    | requirement requirement =>
        simp only [Assembly.addBlock, content]
        exact follows.addRequirement content
    | journey journey =>
        have single : nodesOf path block = [journeyNode path block journey] := by
          simp only [nodesOf, content]
        rw [offered_take_of_single single]
        simp only [Assembly.addBlock, content]
        exact follows.keeps.addNode (bare_journeyNode path block journey)
    | codeReference reference =>
        simp only [Assembly.addBlock, content]
        exact follows.addReference (by simp only [nodesOf, content])
    | testReference reference =>
        simp only [Assembly.addBlock, content]
        exact follows.addReference (by simp only [nodesOf, content])
    | comment text decorative =>
        simp only [Assembly.addBlock, content]
        exact nothing (by simp only [nodesOf, content])
    | remainder =>
        simp only [Assembly.addBlock, content]
        exact nothing (by simp only [nodesOf, content])

/-- What holds of nothing, and is kept as a block is taken in and as the facts of a file are
recorded, holds of all files. -/
theorem ofFiles_induction {motive : Assembly → Intake → Prop} (empty : motive {} {})
    (take
      : ∀ {assembly intake} path block, motive assembly intake →
          motive (addBlock path assembly block) (intake.take ⟨path, block⟩))
    (facts
      : ∀ {assembly intake} path facts, motive assembly intake →
          motive { assembly with graph := assembly.graph.recordFile path facts } intake)
    (files : List ParsedFile)
    : motive (files.foldl addFile {}) (Intake.ofFiles files) := by
  have blocks (path : String) (blocks : List Block) {assembly : Assembly} {intake : Intake}
      (holds : motive assembly intake)
      : motive (blocks.foldl (addBlock path) assembly)
          ((blocks.map (fun block => ⟨path, block⟩)).foldl Intake.take intake) := by
    induction blocks generalizing assembly intake with
    | nil => exact holds
    | cons block rest ih => exact ih (take path block holds)
  have run (files : List ParsedFile) {assembly : Assembly} {intake : Intake}
      (holds : motive assembly intake)
      : motive (files.foldl addFile assembly)
          ((files.flatMap ParsedFile.records).foldl Intake.take intake) := by
    induction files generalizing assembly intake with
    | nil => exact holds
    | cons file rest ih =>
        rw [List.flatMap_cons, List.foldl_append]
        exact ih (facts file.path _ (blocks file.path file.blocks holds))
  exact run files empty

theorem follows_ofFiles (files : List ParsedFile)
    : (files.foldl addFile {}).Follows (Intake.ofFiles files) :=
  ofFiles_induction ⟨Graph.keeps_empty, fun _ => Iff.rfl⟩
    (fun path block follows => follows.addBlock path block)
    (fun _ _ follows => ⟨⟨follows.keeps.entries, follows.keeps.duplicates⟩, follows.complete⟩) files

end Assembly

-----------------------------------------------------------------------------------------
-- Assembled graphs
-----------------------------------------------------------------------------------------

namespace Graph

/-- An assembled graph keeps the first node of each identifier that it was offered. -/
theorem keeps_assemble (scheme : Scheme) (files : List ParsedFile)
    : (assemble scheme files).Keeps (Intake.ofFiles files).offered where
  entries id := (bare?_finish scheme _ id).trans ((Assembly.follows_ofFiles files).keeps.entries id)
  duplicates := by
    rw [assemble, Assembly.duplicates_finish]
    exact (Assembly.follows_ofFiles files).keeps.duplicates

/-- The identifiers of a graph are those that the accepted records define. -/
theorem contains_assemble_iff {scheme : Scheme} {files : List ParsedFile} {id : String}
    : (assemble scheme files).contains id = true
      ↔ ∃ record ∈ acceptedRecords files, id ∈ record.ids := by
  rw [(keeps_assemble scheme files).contains_iff, Intake.complete_ofFiles files id,
    List.mem_flatMap]
  rfl

end Graph

end Traceability
