import Traceability.Proofs.Graph.Mentions

/-! Which requirements are roots.
Roots are noted while blocks are taken in, by what a metadata line declares. In the finished graph
they are the requirements that no edge places under a parent: whatever is declared becomes an edge,
and only its own record declares what leaves a requirement.
-/

namespace Traceability

-----------------------------------------------------------------------------------------
-- The roots of records
-----------------------------------------------------------------------------------------

namespace Record

/-- The requirement of a record, if it declares no parent. -/
def roots (record : Record) : List String :=
  Assembly.rootsOf record.block

variable {record : Record}

theorem mem_roots_iff {id : String}
    : id ∈ record.roots
      ↔ ∃ requirement,
          record.requirement? = some requirement
          ∧ requirement.id = id
          ∧ requirement.implementsTargets = []
          ∧ requirement.refinesTargets = [] := by
  rw [roots, Assembly.rootsOf, requirement?]
  cases record.block.content with
  | requirement requirement =>
      simp only [Bool.and_eq_true, List.isEmpty_iff, List.mem_ite_nil_right, List.mem_singleton,
        Option.some.injEq, exists_eq_left']
      rw [and_comm, eq_comm]
  | _ => simp

theorem roots_sublist_ids (record : Record) : record.roots.Sublist record.ids := by
  rw [roots, Assembly.rootsOf]
  split
  · next requirement content =>
      have first : record.ids.head? = some requirement.id := by
        rw [ids, nodes, Assembly.nodesOf, content, List.map_cons, List.head?_cons,
          Assembly.id_requirementNode]
      obtain ⟨rest, ids⟩ := List.head?_eq_some_iff.mp first
      rw [ids]
      split
      · exact (List.nil_sublist rest).cons_cons requirement.id
      · exact List.nil_sublist _
  · exact List.nil_sublist _

end Record

namespace Assembly

variable {assembly : Assembly} {intake : Intake}

/-- A block adds its root if its record is accepted. -/
theorem roots_addBlock (follows : assembly.Follows intake) (path : String) (block : Block)
    : (addBlock path assembly block).roots
      = assembly.roots
        ++ if (⟨path, block⟩ : Record).isNew intake.accepted then rootsOf block else [] := by
  have plain (none : rootsOf block = [])
      : assembly.roots
        = assembly.roots
          ++ if (⟨path, block⟩ : Record).isNew intake.accepted then rootsOf block else [] := by
    rw [none, ite_self, List.append_nil]
  have reference (nodeKind : NodeKind) (edgeKind : EdgeKind) (reference : Reference)
      : (addReference nodeKind edgeKind path assembly block reference).roots = assembly.roots := by
    rw [addReference]
    split <;> rfl
  cases content : block.content with
  | requirement requirement =>
      have own
          : (⟨path, block⟩ : Record).nodes.head?
            = some (requirementNode path block requirement) := by
        simp only [Record.nodes, nodesOf, content, List.head?_cons]
      have isNew := follows.isNew_iff own
      simp only [addBlock, content, addRequirement]
      split
      · next taken => rw [if_neg (fun new => isNew.mp new taken), List.append_nil]
      · next free =>
          rw [if_pos (isNew.mpr free)]
          simp only [rootsOf, content]
          split
          · rfl
          · rw [List.append_nil]
  | journey journey =>
      simp only [addBlock, content]
      exact plain (by simp only [rootsOf, content])
  | codeReference own =>
      simp only [addBlock, content, reference]
      exact plain (by simp only [rootsOf, content])
  | testReference own =>
      simp only [addBlock, content, reference]
      exact plain (by simp only [rootsOf, content])
  | comment text decorative =>
      simp only [addBlock, content]
      exact plain (by simp only [rootsOf, content])
  | remainder =>
      simp only [addBlock, content]
      exact plain (by simp only [rootsOf, content])

theorem roots_ofFiles (files : List ParsedFile)
    : (files.foldl addFile {}).roots = (acceptedRecords files).flatMap Record.roots := by
  have run
      : (files.foldl addFile {}).Follows (Intake.ofFiles files)
        ∧ (files.foldl addFile {}).roots
          = (Intake.ofFiles files).accepted.flatMap Record.roots := by
    refine ofFiles_induction (motive := fun assembly intake =>
      assembly.Follows intake ∧ assembly.roots = intake.accepted.flatMap Record.roots)
      ⟨follows_ofFiles [], rfl⟩ ?_ ?_ files
    · intro assembly intake path block ⟨follows, roots⟩
      refine ⟨follows.addBlock path block, ?_⟩
      rw [roots_addBlock follows, roots, Intake.accepted_take]
      split
      · rw [List.flatMap_append, List.flatMap_singleton]
        rfl
      · rw [List.append_nil]
    · intro assembly intake path facts ⟨⟨⟨entries, duplicates⟩, complete⟩, roots⟩
      exact ⟨⟨⟨entries, duplicates⟩, complete⟩, roots⟩
  exact run.2

end Assembly

-----------------------------------------------------------------------------------------
-- The roots of graphs
-----------------------------------------------------------------------------------------

/-- A reference has an edge whatever it names. -/
theorem PendingReference.exists_mem_edges (scheme : Scheme) (reference : PendingReference)
    : ∃ edge, edge ∈ reference.edges scheme := by
  refine List.exists_mem_of_ne_nil _ ?_
  rw [edges_eq, ne_eq, List.map_eq_nil_iff, mentions]
  split
  · exact List.cons_ne_nil _ _
  · next several =>
      rw [List.map_eq_nil_iff]
      exact fun none => several (by rw [none]; exact Nat.zero_le 1)

namespace Graph

variable {scheme : Scheme} {files : List ParsedFile} {record : Record}

/-- A requirement is placed under a parent, whether the parent exists or not. -/
def IsPlaced (graph : Graph) (id : String) : Prop :=
  ∃ edge ∈ graph.edges, edge.source = id ∧ (edge.kind = .implements ∨ edge.kind = .refines)

instance (graph : Graph) (id : String) : Decidable (graph.IsPlaced id) :=
  decidable_of_iff (∃ edge ∈ graph.edges.toList,
      edge.source = id ∧ (edge.kind = .implements ∨ edge.kind = .refines))
    (by simp only [Array.mem_toList_iff, IsPlaced])

theorem roots_assemble (scheme : Scheme) (files : List ParsedFile)
    : (assemble scheme files).roots = (acceptedRecords files).flatMap Record.roots :=
  Assembly.roots_ofFiles files

theorem isRequirement_assemble_iff {id : String}
    : (assemble scheme files).isRequirement id = true
      ↔ ∃ record ∈ acceptedRecords files, ∃ requirement,
          record.requirement? = some requirement ∧ requirement.id = id := by
  rw [isRequirement_iff_bare?]
  constructor
  · rintro ⟨entry, found, kind⟩
    obtain ⟨record, accepted, declared⟩ := exists_accepted_of_bare? found
    obtain ⟨requirement, content, rfl⟩ := Assembly.requirement_of_mem_nodesOf declared kind
    refine ⟨record, accepted, requirement, by rw [Record.requirement?, content], ?_⟩
    rw [← id_of_bare? found, Assembly.id_requirementNode]
  · rintro ⟨record, accepted, requirement, content, rfl⟩
    have found := bare?_of_accepted scheme accepted (Record.node?_of_requirement? content)
    rw [Assembly.id_requirementNode] at found
    exact ⟨_, found, Assembly.kind_requirementNode _ _ _⟩

/-- Edges of a kind leave a requirement exactly if its metadata line lists targets for them. -/
theorem exists_edge_iff_targets (accepted : record ∈ acceptedRecords files)
    {requirement : Requirement} (content : record.requirement? = some requirement)
    {kind : EdgeKind} (written : kind ≠ .contains)
    : (∃ edge ∈ (assemble scheme files).edges, edge.source = requirement.id ∧ edge.kind = kind)
      ↔ requirement.targets kind ≠ [] := by
  have own := Record.node?_of_requirement? content
  have declares {reference : PendingReference}
      : reference ∈ record.references
        ↔ reference.source = requirement.id
          ∧ reference.line = record.block.startLine
          ∧ reference.target ∈ requirement.targets reference.kind := by
    rw [← Assembly.mem_declared_iff, Record.references, Assembly.referencesOf]
    rw [Record.requirement?] at content
    split at content
    · next here =>
        rw [here, Option.some.inj content]
    · exact absurd content (by simp)
  constructor
  · rintro ⟨edge, present, source, rfl⟩
    rw [← Assembly.id_requirementNode record.path record.block requirement] at source
    have line := (mem_edges_iff_firstLine? accepted own source written).mp present
    obtain ⟨reference, found, -⟩ := Option.map_eq_some_iff.mp line
    have listed := (declares.mp (List.mem_of_find?_eq_some found)).2.2
    have fits := List.find?_some found
    rw [decide_eq_true_eq] at fits
    exact List.ne_nil_of_mem (fits.1 ▸ listed)
  · intro some
    obtain ⟨target, listed⟩ := List.exists_mem_of_ne_nil _ some
    let reference : PendingReference := ⟨requirement.id, target, kind, record.block.startLine⟩
    have written : reference ∈ record.references := declares.mpr ⟨rfl, rfl, listed⟩
    obtain ⟨edge, within⟩ := reference.exists_mem_edges scheme
    obtain ⟨other, present, same⟩ := exists_edge_of_reference accepted written within
    obtain ⟨source, -, isKind, -⟩ := Edge.same_iff.mp same
    refine ⟨other, present, ?_, ?_⟩
    · rw [← source, Assembly.source_of_mem_edges within]
    · rw [← isKind, (PendingReference.cases_of_mem_edges within).1]

/-- The roots are the requirements that are placed under no parent. -/
theorem mem_roots_assemble_iff {id : String}
    : id ∈ (assemble scheme files).roots
      ↔ (assemble scheme files).isRequirement id = true
        ∧ ¬ (assemble scheme files).IsPlaced id := by
  have placed {record : Record} (accepted : record ∈ acceptedRecords files)
      {requirement : Requirement} (content : record.requirement? = some requirement)
      : (assemble scheme files).IsPlaced requirement.id
        ↔ ¬ (requirement.implementsTargets = [] ∧ requirement.refinesTargets = []) := by
    rw [Decidable.not_and_iff_not_or_not]
    have implementing
        : (∃ edge ∈ (assemble scheme files).edges,
            edge.source = requirement.id ∧ edge.kind = .implements)
          ↔ requirement.implementsTargets ≠ [] :=
      exists_edge_iff_targets accepted content EdgeKind.noConfusion
    have refining
        : (∃ edge ∈ (assemble scheme files).edges,
            edge.source = requirement.id ∧ edge.kind = .refines)
          ↔ requirement.refinesTargets ≠ [] :=
      exists_edge_iff_targets accepted content EdgeKind.noConfusion
    rw [← ne_eq, ← ne_eq, ← implementing, ← refining, IsPlaced, ← exists_or]
    refine exists_congr (fun edge => ?_)
    tauto
  rw [roots_assemble, List.mem_flatMap, isRequirement_assemble_iff]
  simp only [Record.mem_roots_iff]
  constructor
  · rintro ⟨record, accepted, requirement, content, rfl, plain⟩
    exact ⟨⟨record, accepted, requirement, content, rfl⟩,
      fun parent => (placed accepted content).mp parent plain⟩
  · rintro ⟨⟨record, accepted, requirement, content, rfl⟩, parentless⟩
    exact ⟨record, accepted, requirement, content, rfl,
      Decidable.not_not.mp (fun parent => parentless ((placed accepted content).mpr parent))⟩

/-- No root is noted twice. Witness: no accepted record defines the identifier of another. -/
theorem nodup_roots_assemble (scheme : Scheme) (files : List ParsedFile)
    : (assemble scheme files).roots.Nodup := by
  rw [roots_assemble, List.nodup_flatMap]
  constructor
  · intro record _
    rw [Record.roots, Assembly.rootsOf]
    split
    · split
      · exact List.nodup_singleton _
      · exact List.nodup_nil
    · exact List.nodup_nil
  · refine (Intake.accepted_pairwise files).imp (fun {earlier later} apart id => ?_)
    intro first second
    obtain ⟨requirement, content, rfl, -⟩ := Record.mem_roots_iff.mp second
    have foreign := apart _ (Record.node?_of_requirement? content)
    rw [Assembly.id_requirementNode] at foreign
    exact foreign (earlier.roots_sublist_ids.subset first)

end Graph

end Traceability
