import Traceability.Proofs.Graph.Rearranged
import Traceability.Proofs.Graph.WrittenLines

/-! What references mention.
A reference mentions its target, or the requirement in its target once for each of several
letters. Every mention is an edge. A graph keeps one edge of those that say the same, so the first
mention in a record decides which line its edge has.
-/

namespace Traceability

-----------------------------------------------------------------------------------------
-- Mentions
-----------------------------------------------------------------------------------------

namespace PendingReference

/-- The letters in the target of a reference to requirements and their assertions. -/
def letters (scheme : Scheme) (reference : PendingReference) : List Char :=
  if reference.kind = .addresses then []
  else ((scheme.parseId? reference.target).map Identifier.letters).getD []

/-- The target of a reference, without its letters if these are several. -/
def base (scheme : Scheme) (reference : PendingReference) : String :=
  let letters := reference.letters scheme
  if letters.length ≤ 1 then reference.target
  else String.ofList (reference.target.toList.take (reference.target.length - 2 * letters.length))

/-- What a reference mentions: its target, or the base of its target with each letter. -/
def mentions (scheme : Scheme) (reference : PendingReference) : List (String × List String) :=
  let letters := reference.letters scheme
  if letters.length ≤ 1 then [(reference.target, [])]
  else letters.map (fun letter => (reference.base scheme, [letter.toString]))

/-- The edge of a mention. -/
def edgeOf (reference : PendingReference) (mention : String × List String) : Edge :=
  ⟨reference.source, mention.1, reference.kind, mention.2, reference.line⟩

variable {scheme : Scheme} {reference : PendingReference}

theorem fst_of_mem_mentions {mention : String × List String}
    (member : mention ∈ reference.mentions scheme)
    : mention.1 = reference.base scheme := by
  simp only [mentions] at member
  split at member
  · next few =>
      rw [List.mem_singleton.mp member, base, if_pos few]
  · obtain ⟨letter, -, rfl⟩ := List.mem_map.mp member
    rfl

/-- The edges of a reference are those of its mentions. -/
theorem edges_eq (scheme : Scheme) (reference : PendingReference)
    : reference.edges scheme = (reference.mentions scheme).map reference.edgeOf := by
  by_cases few : (reference.letters scheme).length ≤ 1
  · simp only [mentions, if_pos few]
    exact if_pos few
  · simp only [mentions, base, if_neg few, List.map_map]
    exact if_neg few

/-- A reference has an edge that says the same as another if it makes the same mention. -/
theorem find?_edges (scheme : Scheme) (reference : PendingReference) (edge : Edge)
    : (reference.edges scheme).find? (Edge.same edge)
      = if edge.source = reference.source ∧ edge.kind = reference.kind
            ∧ (edge.target, edge.letters) ∈ reference.mentions scheme then
          some { edge with line := reference.line }
        else none := by
  rw [edges_eq]
  cases found : ((reference.mentions scheme).map reference.edgeOf).find? (Edge.same edge) with
  | some other =>
      obtain ⟨mention, mentioned, rfl⟩ := List.mem_map.mp (List.mem_of_find?_eq_some found)
      obtain ⟨source, target, kind, letters⟩ := Edge.same_iff.mp (List.find?_some found)
      have same : (edge.target, edge.letters) = mention := Prod.ext target letters
      rw [if_pos ⟨source, kind, same ▸ mentioned⟩, source, target, kind, letters]
      rfl
  | none =>
      refine (if_neg fun made => ?_).symm
      obtain ⟨source, kind, mentioned⟩ := made
      refine List.find?_eq_none.mp found _ (List.mem_map_of_mem mentioned) ?_
      exact Edge.same_iff.mpr ⟨source, rfl, kind, rfl⟩

end PendingReference

-----------------------------------------------------------------------------------------
-- First mentions
-----------------------------------------------------------------------------------------

/-- An edge is inserted with the line on which it stands first. -/
theorem mem_foldl_insertEdge_iff {edges more : List Edge} {edge : Edge}
    : edge ∈ more.foldl insertEdge edges
      ↔ edge ∈ edges
        ∨ edges.any (Edge.same edge) = false ∧ more.find? (Edge.same edge) = some edge := by
  induction more generalizing edges with
  | nil => simp
  | cons next rest ih =>
      rw [List.foldl_cons, ih, insertEdge, List.find?_cons]
      cases same : Edge.same edge next with
      | true =>
          have known : edges.any (Edge.same next) = edges.any (Edge.same edge) := by
            rw [Edge.same_eq_of_same same]
          rw [known]
          split
          · next present => simp [present]
          · next absent =>
              rw [Bool.not_eq_true] at absent
              simp [absent, same, eq_comm]
      | false =>
          have differs : edge ≠ next := by
            rintro rfl
            rw [Edge.same_refl] at same
            cases same
          split
          · rfl
          · simp [same, differs]

namespace Record

/-- The line on which a record first makes a mention with a kind of reference. -/
def firstLine? (scheme : Scheme) (record : Record) (kind : EdgeKind)
    (mention : String × List String)
    : Option Nat :=
  (record.references.find? (fun reference =>
    reference.kind = kind ∧ mention ∈ reference.mentions scheme)).map PendingReference.line

/-- Of the edges of references from one node, the first that says the same as another stands on
the line of the first mention. -/
theorem find?_edges_eq_some_iff {scheme : Scheme} {edge : Edge}
    {references : List PendingReference}
    (sources : ∀ reference ∈ references, reference.source = edge.source)
    : (references.flatMap (PendingReference.edges scheme)).find? (Edge.same edge) = some edge
      ↔ (references.find? (fun reference =>
            reference.kind = edge.kind
            ∧ (edge.target, edge.letters) ∈ reference.mentions scheme)).map PendingReference.line
        = some edge.line := by
  induction references with
  | nil => simp
  | cons reference rest ih =>
      have source : edge.source = reference.source := (sources _ List.mem_cons_self).symm
      rw [List.flatMap_cons, List.find?_append, PendingReference.find?_edges, List.find?_cons]
      by_cases made : edge.kind = reference.kind
          ∧ (edge.target, edge.letters) ∈ reference.mentions scheme
      · have made' : reference.kind = edge.kind
            ∧ (edge.target, edge.letters) ∈ reference.mentions scheme :=
          made.imp_left Eq.symm
        rw [if_pos ⟨source, made⟩, decide_eq_true made', Option.some_or]
        constructor
        · intro same
          exact congrArg (Option.map Edge.line) same
        · intro same
          rw [Option.some.inj same]
      · have made' : ¬ (reference.kind = edge.kind
            ∧ (edge.target, edge.letters) ∈ reference.mentions scheme) :=
          fun other => made (other.imp_left Eq.symm)
        rw [if_neg (fun other => made other.2), decide_eq_false made', Option.none_or]
        exact ih fun other member => sources other (List.mem_cons_of_mem _ member)

/-- A reference leaves the node of its record. -/
theorem exists_node_of_mem_references {record : Record} {reference : PendingReference}
    (member : reference ∈ record.references)
    : ∃ node,
        record.node? = some node
        ∧ reference.source = node.id
        ∧ reference.kind ≠ .contains := by
  rcases reference_cases member with
    ⟨requirement, isRequirement, source, listed⟩ | ⟨node, isReference, source, -, plain, -⟩
  · have plain := (Requirement.kind_of_mem_targets listed).2.1
    refine ⟨_, node?_of_requirement? isRequirement, ?_, plain⟩
    rw [Assembly.id_requirementNode]
    exact source
  · exact ⟨node, node?_of_referenceNode? isReference, source, plain⟩

theorem source_of_mem_references {record : Record} {node : Node}
    (own : record.node? = some node) {reference : PendingReference}
    (member : reference ∈ record.references)
    : reference.source = node.id := by
  obtain ⟨other, same, source, -⟩ := exists_node_of_mem_references member
  rw [source, Option.some.inj (own.symm.trans same)]

end Record

namespace Graph

variable {scheme : Scheme} {files : List ParsedFile} {record : Record} {node : Node} {edge : Edge}

/-- Whatever leaves a node is written by its record. Witness: no other accepted record defines the
identifier of the node. -/
theorem find?_written_eq (accepted : record ∈ acceptedRecords files)
    (own : record.node? = some node) (source : edge.source = node.id)
    : (((acceptedRecords files).flatMap Record.references).flatMap
          (PendingReference.edges scheme)).find? (Edge.same edge)
      = (record.references.flatMap (PendingReference.edges scheme)).find? (Edge.same edge) := by
  have elsewhere (records : List Record)
      (others : ∀ other ∈ records, ∀ entry, other.node? = some entry → entry.id ≠ node.id)
      : ((records.flatMap Record.references).flatMap (PendingReference.edges scheme)).find?
          (Edge.same edge) = none := by
    refine List.find?_eq_none.mpr fun more member same => ?_
    obtain ⟨reference, listed, within⟩ := List.mem_flatMap.mp member
    obtain ⟨other, mem, written⟩ := List.mem_flatMap.mp listed
    obtain ⟨entry, isEntry, leaves, -⟩ := Record.exists_node_of_mem_references written
    refine others other mem entry isEntry ?_
    rw [← leaves, ← Assembly.source_of_mem_edges within, ← (Edge.same_iff.mp same).1, source]
  have apart : (acceptedRecords files).Pairwise _ := Intake.accepted_pairwise files
  obtain ⟨before, after, split⟩ := List.append_of_mem accepted
  rw [split] at apart ⊢
  obtain ⟨-, onward, earlier⟩ := List.pairwise_append.mp apart
  have noneBefore := elsewhere before fun other member entry isEntry same =>
    earlier other member record List.mem_cons_self node own (same ▸ Record.id_mem_ids isEntry)
  have noneAfter := elsewhere after fun other member entry isEntry same =>
    (List.pairwise_cons.mp onward).1 other member entry isEntry (same ▸ Record.id_mem_ids own)
  rw [List.flatMap_append, List.flatMap_append, List.flatMap_cons, List.flatMap_append,
    List.find?_append, List.find?_append, noneBefore, noneAfter, Option.none_or, Option.or_none]

/-- An edge stands on the line on which the record of its source first mentions what it says. -/
theorem mem_edges_iff_firstLine? (accepted : record ∈ acceptedRecords files)
    (own : record.node? = some node) (source : edge.source = node.id)
    (written : edge.kind ≠ .contains)
    : edge ∈ (assemble scheme files).edges
      ↔ record.firstLine? scheme edge.kind (edge.target, edge.letters) = some edge.line := by
  have linked : ∀ other ∈ (files.foldl Assembly.addFile {}).graph.edges.toList,
      other.kind = .contains := by
    intro other member
    have link := (Assembly.writes_ofFiles files).links other (Array.mem_toList_iff.mp member)
    obtain ⟨writer, -, isLink⟩ := List.mem_flatMap.mp link
    exact Assembly.kind_of_mem_linksOf isLink
  have fresh : (files.foldl Assembly.addFile {}).graph.edges.toList.any (Edge.same edge) = false :=
    List.any_eq_false.mpr fun other member same =>
      written ((Edge.same_iff.mp same).2.2.1.trans (linked other member))
  rw [← Array.mem_toList_iff, toList_edges_assemble, mem_foldl_insertEdge_iff,
    or_iff_right (fun member => written (linked edge member)), fresh, and_iff_right rfl,
    find?_written_eq accepted own source]
  exact Record.find?_edges_eq_some_iff fun reference member =>
    (Record.source_of_mem_references own member).trans source.symm

end Graph

end Traceability
