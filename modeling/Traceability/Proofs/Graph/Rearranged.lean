import Traceability.Proofs.Coverage.Definition
import Traceability.Proofs.Graph.Declared

/-! Files in another order.
If no identifier is declared twice, the order of the files decides no more than the order of roots
and edges. All edges that leave a node are written in its file, so they stay in order among
themselves.
-/

namespace Traceability

-----------------------------------------------------------------------------------------
-- Lists
-----------------------------------------------------------------------------------------

/-- The order of items does not matter if all that contribute are the same. -/
theorem flatMap_eq_of_perm {α β : Type} {items other : List α} {f : α → List β}
    (perm : items.Perm other) (alone : items.Pairwise (fun a b => a = b ∨ f a = [] ∨ f b = []))
    : items.flatMap f = other.flatMap f := by
  have symm (a b : α) : (a = b ∨ f a = [] ∨ f b = []) → (b = a ∨ f b = [] ∨ f a = []) :=
    Or.imp Eq.symm Or.symm
  induction perm with
  | nil => rfl
  | cons item _ ih =>
      rw [List.flatMap_cons, List.flatMap_cons, ih (List.pairwise_cons.mp alone).2]
  | swap first second rest =>
      rcases (List.pairwise_cons.mp alone).1 first List.mem_cons_self with rfl | none | none
      · rfl
      · simp [none]
      · simp [none]
  | trans before _ ih later =>
      exact (ih alone).trans (later (before.pairwise alone (symm _ _)))

/-- The edges of a list that leave a node. -/
def leaving (id : String) (edges : List Edge) : List Edge :=
  edges.filter (fun edge => edge.source = id)

/-- An edge that is inserted concerns only those that leave the same node. -/
theorem leaving_insertEdge (id : String) (edges : List Edge) (edge : Edge)
    : leaving id (insertEdge edges edge)
      = if edge.source = id then insertEdge (leaving id edges) edge else leaving id edges := by
  -- What says the same as the edge leaves the same node, so it is not left out.
  have there (own : edge.source = id)
      : (leaving id edges).any (Edge.same edge) = edges.any (Edge.same edge) := by
    rw [leaving, List.any_filter]
    refine List.any_congr rfl (fun other => ?_)
    cases same : Edge.same edge other with
    | false => rw [Bool.and_false]
    | true => rw [← (Edge.ends_of_same same).1, own, decide_eq_true rfl, Bool.and_true]
  rw [insertEdge, insertEdge]
  by_cases own : edge.source = id
  · rw [if_pos own, there own]
    split
    · rfl
    · simp [leaving, own]
  · rw [if_neg own]
    split
    · rfl
    · simp [leaving, own]

theorem leaving_foldl_insertEdge (id : String) (more edges : List Edge)
    : leaving id (more.foldl insertEdge edges)
      = (leaving id more).foldl insertEdge (leaving id edges) := by
  induction more generalizing edges with
  | nil => rfl
  | cons edge rest ih =>
      rw [List.foldl_cons, ih, leaving_insertEdge]
      by_cases own : edge.source = id
      · simp [leaving, own]
      · simp [leaving, own]

-----------------------------------------------------------------------------------------
-- What one file declares
-----------------------------------------------------------------------------------------

namespace ParsedFile

/-- The edges of the references of a file. -/
def written (scheme : Scheme) (file : ParsedFile) : List Edge :=
  file.references.flatMap (PendingReference.edges scheme)

theorem source_of_mem_links {file : ParsedFile} {edge : Edge} (member : edge ∈ file.links)
    : edge.source ∈ file.nodes.map Node.id := by
  obtain ⟨block, own, linked⟩ := List.mem_flatMap.mp member
  rw [nodes, List.map_flatMap]
  exact List.mem_flatMap.mpr ⟨block, own, Assembly.source_of_mem_linksOf linked⟩

theorem source_of_mem_written {scheme : Scheme} {file : ParsedFile} {edge : Edge}
    (member : edge ∈ file.written scheme)
    : edge.source ∈ file.nodes.map Node.id := by
  obtain ⟨reference, listed, read⟩ := List.mem_flatMap.mp member
  obtain ⟨block, own, waits⟩ := List.mem_flatMap.mp listed
  rw [Assembly.source_of_mem_edges read, nodes, List.map_flatMap]
  exact List.mem_flatMap.mpr ⟨block, own, Assembly.source_of_mem_referencesOf waits⟩

/-- The edges that leave a node stand in one file, so the order of files does not matter to
them. -/
theorem leaving_eq_of_perm {files other : List ParsedFile} (perm : files.Perm other)
    (unique : ((files.flatMap nodes).map Node.id).Nodup) {edges : ParsedFile → List Edge}
    (sources : ∀ file, ∀ edge ∈ edges file, edge.source ∈ file.nodes.map Node.id) (id : String)
    : leaving id (files.flatMap edges) = leaving id (other.flatMap edges) := by
  rw [leaving, leaving, List.filter_flatMap, List.filter_flatMap]
  refine flatMap_eq_of_perm perm ?_
  rw [List.map_flatMap, List.nodup_flatMap] at unique
  refine unique.2.imp ?_
  intro first second apart
  -- A node that both files gave edges to would be declared by both.
  refine Or.inr (or_iff_not_imp_left.mpr (fun some => ?_))
  obtain ⟨edge, member⟩ := List.exists_mem_of_ne_nil _ some
  obtain ⟨here, own⟩ := List.mem_filter.mp member
  refine List.filter_eq_nil_iff.mpr (fun more there again => ?_)
  rw [decide_eq_true_eq] at own again
  refine apart (own ▸ sources first edge here) ?_
  exact again ▸ sources second more there

end ParsedFile

-----------------------------------------------------------------------------------------
-- Rearranged graphs
-----------------------------------------------------------------------------------------

namespace Graph

/-- Both graphs keep the same, apart from the order of roots and of edges that leave different
nodes. -/
structure Rearranged (graph other : Graph) : Prop where
  entries : graph.SameEntries other
  leaving : ∀ id, leaving id other.edges.toList = leaving id graph.edges.toList
  roots : other.roots.Perm graph.roots
  duplicates : other.duplicates = graph.duplicates
  files : other.files = graph.files

/-- A graph without duplicates keeps exactly what the files declare. -/
theorem declared_of_assemble (scheme : Scheme) {files : List ParsedFile}
    (unique : ((files.flatMap ParsedFile.nodes).map Node.id).Nodup)
    : (∀ id entry, (assemble scheme files).bare? id = some entry
        ↔ entry ∈ files.flatMap ParsedFile.nodes ∧ entry.id = id)
      ∧ (assemble scheme files).edges.toList
        = (files.flatMap (ParsedFile.written scheme)).foldl insertEdge
            (files.flatMap ParsedFile.links)
      ∧ (assemble scheme files).roots = files.flatMap ParsedFile.roots := by
  have kept := (Assembly.collected_empty.foldl_addFile files unique).finish scheme
  simp only [List.nil_append, List.flatMap_assoc] at kept
  exact kept

/-- The order of files with distinct paths does not matter to their facts. -/
theorem files_assemble_of_perm (scheme : Scheme) {files other : List ParsedFile}
    (perm : other.Perm files) (paths : (files.map ParsedFile.path).Nodup)
    : (assemble scheme other).files = (assemble scheme files).files := by
  rw [files_assemble, files_assemble]
  refine (perm.symm.foldl_eq' ?_ ∅).symm
  intro first here second there kept
  by_cases same : first.path = second.path
  · rw [List.inj_on_of_nodup_map paths here there same]
  · refine Std.ExtTreeMap.ext_getElem? (fun path => ?_)
    simp only [Std.ExtTreeMap.getElem?_insert, Std.LawfulEqCmp.compare_eq_iff_eq]
    by_cases last : second.path = path
    · rw [if_pos last, if_neg (fun also => same (also.trans last.symm)), if_pos last]
    · rw [if_neg last, if_neg last]

/-- The order of files with distinct paths matters only to the order of roots and edges, if no
identifier is declared twice. -/
theorem rearranged_assemble (scheme : Scheme) {files other : List ParsedFile}
    (perm : other.Perm files) (paths : (files.map ParsedFile.path).Nodup)
    (fresh : (assemble scheme files).duplicates = [])
    : (assemble scheme files).Rearranged (assemble scheme other) := by
  have unique := (duplicates_assemble_iff scheme files).mp fresh
  have nodes := perm.flatMap_right ParsedFile.nodes
  have uniqueOther : ((other.flatMap ParsedFile.nodes).map Node.id).Nodup :=
    ((nodes.map Node.id).nodup_iff).mpr unique
  obtain ⟨entries, edges, roots⟩ := declared_of_assemble scheme unique
  obtain ⟨entriesOther, edgesOther, rootsOther⟩ := declared_of_assemble scheme uniqueOther
  exact {
    entries := fun id => Option.ext (fun entry => by
      rw [entries, entriesOther, nodes.mem_iff])
    leaving := fun id => by
      rw [edges, edgesOther, leaving_foldl_insertEdge, leaving_foldl_insertEdge,
        ParsedFile.leaving_eq_of_perm perm uniqueOther
          (fun _ _ => ParsedFile.source_of_mem_links),
        ParsedFile.leaving_eq_of_perm perm uniqueOther
          (fun _ _ => ParsedFile.source_of_mem_written)]
    roots := by
      rw [roots, rootsOther]
      exact perm.flatMap_right ParsedFile.roots
    duplicates := by rw [fresh, (duplicates_assemble_iff scheme other).mpr uniqueOther]
    files := files_assemble_of_perm scheme perm paths
  }

-----------------------------------------------------------------------------------------
-- What rearranged graphs share
-----------------------------------------------------------------------------------------

namespace Rearranged

variable {graph other : Graph}

/-- The edges are the same up to their order. Witness: each is counted among those that leave its
source. -/
theorem edges (rearranged : graph.Rearranged other)
    : other.edges.toList.Perm graph.edges.toList := by
  rw [List.perm_iff_count]
  intro edge
  have counted (edges : List Edge)
      : (Traceability.leaving edge.source edges).count edge = edges.count edge :=
    List.count_filter (decide_eq_true rfl)
  rw [← counted other.edges.toList, ← counted graph.edges.toList, rearranged.leaving]

theorem mem_edges_iff (rearranged : graph.Rearranged other) {edge : Edge}
    : edge ∈ other.edges ↔ edge ∈ graph.edges := by
  rw [← Array.mem_toList_iff, ← Array.mem_toList_iff, rearranged.edges.mem_iff]

/-- The edges that leave a node are recorded in the same order. -/
theorem outgoing_eq (rearranged : graph.Rearranged other) (attached : graph.Attached)
    (attachedOther : other.Attached) (id : String)
    : other.outgoing id = graph.outgoing id := by
  by_cases present : graph.contains id = true
  · rw [attached.outgoing_eq present,
      attachedOther.outgoing_eq (rearranged.entries.contains_iff.mpr present)]
    exact rearranged.leaving id
  · have absent := rearranged.entries.contains_iff.not.mpr present
    rw [outgoing_of_absent present, outgoing_of_absent absent]

/-- The edges that arrive at a node are recorded in some order. -/
theorem mem_incoming_iff (rearranged : graph.Rearranged other) (attached : graph.Attached)
    (attachedOther : other.Attached) {id : String} {edge : Edge}
    : edge ∈ other.incoming id ↔ edge ∈ graph.incoming id := by
  by_cases present : graph.contains id = true
  · rw [attached.mem_incoming_iff present,
      attachedOther.mem_incoming_iff (rearranged.entries.contains_iff.mpr present),
      rearranged.mem_edges_iff]
  · have absent := rearranged.entries.contains_iff.not.mpr present
    rw [incoming_of_absent present, incoming_of_absent absent]

end Rearranged

end Graph

end Traceability
