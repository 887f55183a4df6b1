import Traceability.Proofs.Distinct
import Traceability.Proofs.Graph.Insertion
import Traceability.Rule.BrokenReference

/-! Which finding belongs to which broken reference.
Two references may have findings that read the same, so each finding is kept beside its
reference while budgets are spent. Every broken reference has exactly one finding.
-/

namespace Traceability

/-- A reference is broken if its target is absent or lacks a letter that it names. -/
theorem Graph.isBroken_iff {graph : Graph} {edge : Edge}
    : graph.isBroken edge = true
      ↔ edge.kind ≠ .contains
        ∧ (graph.node? edge.target = none
          ∨ ∃ target,
              graph.node? edge.target = some target
              ∧ ∃ letter ∈ edge.letters, letter ∉ target.list FieldKey.assertions) := by
  have resolved : graph.isResolved edge = (graph.node? edge.target).isSome :=
    Std.ExtTreeMap.contains_eq_isSome_getElem?
  have missing
      : graph.missingLetters edge ≠ []
        ↔ ∃ target,
            graph.node? edge.target = some target
            ∧ ∃ letter ∈ edge.letters, letter ∉ target.list FieldKey.assertions := by
    rw [missingLetters]
    cases graph.node? edge.target with
    | none => simp
    | some target => simp
  rw [isBroken, resolved, Bool.and_eq_true, Bool.or_eq_true, decide_eq_true_eq,
    decide_eq_true_eq, missing, Bool.not_eq_true', Option.isSome_eq_false_iff,
    Option.isNone_iff_eq_none]

namespace BrokenReference

-----------------------------------------------------------------------------------------
-- Findings beside their references
-----------------------------------------------------------------------------------------

/-- The findings that `spend` returns, each beside its reference. -/
def spendMarked (markers : List Suppression) (used : Nat)
    : List (WrittenReference × Nat × Finding) → List (WrittenReference × Finding)
  | [] => []
  | (reference, line, finding) :: rest =>
      if used < (budget markers line).toNat then
        (reference, { finding with suppressed := true }) :: spendMarked markers (used + 1) rest
      else (reference, finding) :: spendMarked markers used rest

theorem map_snd_spendMarked (markers : List Suppression) (used : Nat)
    (found : List (WrittenReference × Nat × Finding))
    : (spendMarked markers used found).map Prod.snd = spend markers used (found.map Prod.snd) := by
  induction found generalizing used with
  | nil => rfl
  | cons head rest ih =>
      obtain ⟨reference, line, finding⟩ := head
      rw [spendMarked, List.map_cons, spend]
      split
      · rw [List.map_cons, ih]
      · rw [List.map_cons, ih]

theorem map_fst_spendMarked (markers : List Suppression) (used : Nat)
    (found : List (WrittenReference × Nat × Finding))
    : (spendMarked markers used found).map Prod.fst = found.map Prod.fst := by
  induction found generalizing used with
  | nil => rfl
  | cons head rest ih =>
      obtain ⟨reference, line, finding⟩ := head
      rw [spendMarked, List.map_cons]
      split
      · rw [List.map_cons, ih]
      · rw [List.map_cons, ih]

/-- Spending a budget changes nothing of a finding but its mark. -/
theorem exists_of_mem_spendMarked {markers : List Suppression} {used : Nat}
    {found : List (WrittenReference × Nat × Finding)} {entry : WrittenReference × Finding}
    (member : entry ∈ spendMarked markers used found)
    : ∃ own ∈ found, ∃ mark, entry = (own.1, { own.2.2 with suppressed := mark }) := by
  induction found generalizing used with
  | nil => exact absurd member List.not_mem_nil
  | cons head rest ih =>
      obtain ⟨reference, line, finding⟩ := head
      rw [spendMarked] at member
      split at member <;> rcases List.mem_cons.mp member with rfl | later
      case isTrue.inl | isFalse.inl => exact ⟨_, List.mem_cons_self, _, rfl⟩
      case isTrue.inr | isFalse.inr =>
        obtain ⟨own, listed, same⟩ := ih later
        exact ⟨own, List.mem_cons_of_mem _ listed, same⟩

/-- The broken references with the paths, lines and findings that go with them. -/
def found (graph : Graph) : List (WrittenReference × String × Nat × Finding) :=
  graph.brokenReferences.filterMap (fun (reference, letters) =>
    (finding? graph reference letters).map (fun entry => (reference, entry)))

/-- The broken references of a file with their findings, as its budget marks them. -/
def ofFile (graph : Graph) (path : String) : List (WrittenReference × Finding) :=
  let markers := ((graph.files[path]?).map FileFacts.suppressions).getD []
  let own := ((found graph).filter (fun entry => entry.2.1 == path)).map
    (fun entry => (entry.1, entry.2.2))
  spendMarked markers 0 (own.mergeSort (fun a b => a.2.1 ≤ b.2.1))

/-- The paths of the files that hold broken references, in order and each once. -/
def paths (graph : Graph) : List String :=
  (((found graph).map (fun entry => entry.2.1)).mergeSort (fun a b => (compare a b).isLE)).eraseDups

/-- The broken references with their findings, as the budgets of their files mark them. -/
def marked (graph : Graph) : List (WrittenReference × Finding) :=
  (paths graph).flatMap (ofFile graph)

/-- The rule returns the marked findings. -/
theorem check_eq (context : RuleContext)
    : check context = (marked context.graph).map Prod.snd := by
  have entries
      : (context.graph.brokenReferences.filterMap (fun (reference, letters) =>
            finding? context.graph reference letters))
        = (found context.graph).map Prod.snd := by
    rw [found, List.map_filterMap]
    simp [Function.comp_def]
  simp only [check, entries, marked, paths, List.map_flatMap, List.map_map]
  refine List.flatMap_congr (fun path _ => ?_)
  rw [ofFile, map_snd_spendMarked, List.filter_map, List.map_map]
  congr 1
  refine Eq.trans ?_ (List.map_mergeSort
    (r := fun (a b : WrittenReference × Nat × Finding) => decide (a.2.1 ≤ b.2.1))
    (s := fun a b => decide (a.1 ≤ b.1)) (fun _ _ _ _ => rfl)).symm
  rw [List.map_map]
  rfl

-----------------------------------------------------------------------------------------
-- Every broken reference has one finding
-----------------------------------------------------------------------------------------

/-- A reference is listed exactly if one of its edges is broken. -/
theorem mem_brokenReferences_iff {graph : Graph} {reference : WrittenReference}
    : reference ∈ graph.brokenReferences.map Prod.fst
      ↔ ∃ edge ∈ graph.edges,
          graph.isBroken edge = true ∧ WrittenReference.ofEdge edge = reference := by
  simp [Graph.brokenReferences, List.mem_map, List.mem_eraseDups, and_assoc]

theorem brokenReferences_nodup (graph : Graph)
    : (graph.brokenReferences.map Prod.fst).Nodup := by
  simp only [Graph.brokenReferences, List.map_map, Function.comp_def, List.map_id']
  exact nodup_eraseDups _

/-- A broken reference is found if the node from which it was read is present. -/
theorem mem_found_iff {graph : Graph} {reference : WrittenReference}
    : reference ∈ (found graph).map Prod.fst
      ↔ graph.contains reference.source = true
        ∧ ∃ edge ∈ graph.edges,
            graph.isBroken edge = true ∧ WrittenReference.ofEdge edge = reference := by
  rw [← mem_brokenReferences_iff, Graph.contains_iff, List.mem_map, List.mem_map]
  constructor
  · intro given
    obtain ⟨⟨own, entry⟩, member, rfl⟩ := given
    obtain ⟨⟨written, letters⟩, listed, read⟩ := List.mem_filterMap.mp member
    obtain ⟨_, read, same⟩ := Option.map_eq_some_iff.mp read
    obtain ⟨node, present, -⟩ := Option.map_eq_some_iff.mp read
    obtain ⟨rfl, -⟩ := Prod.mk.inj same
    exact ⟨⟨node, present⟩, _, listed, rfl⟩
  · intro ⟨⟨node, present⟩, given⟩
    obtain ⟨⟨written, letters⟩, listed, rfl⟩ := given
    have read : ∃ entry, finding? graph written letters = some entry :=
      ⟨_, Option.map_eq_some_iff.mpr ⟨node, present, rfl⟩⟩
    obtain ⟨entry, read⟩ := read
    exact ⟨(written, entry),
      List.mem_filterMap.mpr ⟨_, listed, Option.map_eq_some_iff.mpr ⟨entry, read, rfl⟩⟩, rfl⟩

theorem found_nodup (graph : Graph) : ((found graph).map Prod.fst).Nodup := by
  have listed := brokenReferences_nodup graph
  rw [List.Nodup, List.pairwise_map] at listed ⊢
  rw [found, List.pairwise_filterMap]
  refine listed.imp ?_
  intro ⟨reference, letters⟩ ⟨other, more⟩ distinct entry read later readLater
  obtain ⟨_, -, rfl⟩ := Option.map_eq_some_iff.mp read
  obtain ⟨_, -, rfl⟩ := Option.map_eq_some_iff.mp readLater
  exact distinct

/-- The references of a file are those found there, each once. -/
theorem map_fst_ofFile_perm (graph : Graph) (path : String)
    : ((ofFile graph path).map Prod.fst).Perm
        (((found graph).filter (fun entry => entry.2.1 == path)).map Prod.fst) := by
  rw [ofFile, map_fst_spendMarked]
  refine ((List.mergeSort_perm _ _).map Prod.fst).trans ?_
  rw [List.map_map]
  exact .rfl

theorem mem_ofFile_iff {graph : Graph} {path : String} {reference : WrittenReference}
    : reference ∈ (ofFile graph path).map Prod.fst
      ↔ ∃ entry, (reference, path, entry) ∈ found graph := by
  rw [(map_fst_ofFile_perm graph path).mem_iff, List.mem_map]
  constructor
  · intro given
    obtain ⟨⟨own, other, entry⟩, member, rfl⟩ := given
    obtain ⟨listed, same⟩ := List.mem_filter.mp member
    exact ⟨entry, eq_of_beq same ▸ listed⟩
  · intro ⟨entry, listed⟩
    exact ⟨_, List.mem_filter.mpr ⟨listed, beq_self_eq_true path⟩, rfl⟩

/-- A reference is found once. -/
theorem found_unique {graph : Graph} {reference : WrittenReference}
    {a b : String × Nat × Finding} (memberA : (reference, a) ∈ found graph)
    (memberB : (reference, b) ∈ found graph)
    : a = b :=
  (Prod.mk.inj (List.inj_on_of_nodup_map (found_nodup graph) memberA memberB rfl)).2

theorem mem_paths_of_mem_found {graph : Graph}
    {entry : WrittenReference × String × Nat × Finding} (member : entry ∈ found graph)
    : entry.2.1 ∈ paths graph := by
  rw [paths, List.mem_eraseDups, List.mem_mergeSort]
  exact List.mem_map_of_mem member

theorem paths_nodup (graph : Graph) : (paths graph).Nodup :=
  nodup_eraseDups _

/-- A reference has no two findings. Witness: it is found under one path, and there once. -/
theorem marked_nodup (graph : Graph) : ((marked graph).map Prod.fst).Nodup := by
  rw [marked, List.map_flatMap, List.nodup_flatMap]
  refine ⟨fun path _ => ?_, ?_⟩
  · rw [(map_fst_ofFile_perm graph path).nodup_iff]
    exact (found_nodup graph).sublist (List.filter_sublist.map _)
  · refine (paths_nodup graph).imp ?_
    intro path other distinct reference here there
    obtain ⟨entry, listed⟩ := mem_ofFile_iff.mp here
    obtain ⟨more, again⟩ := mem_ofFile_iff.mp there
    exact distinct (Prod.mk.inj (found_unique listed again)).1

/-- The references with a finding are those with a broken edge whose source is present. -/
theorem mem_map_fst_marked_iff {graph : Graph} {reference : WrittenReference}
    : reference ∈ (marked graph).map Prod.fst
      ↔ graph.contains reference.source = true
        ∧ ∃ edge ∈ graph.edges,
            graph.isBroken edge = true ∧ WrittenReference.ofEdge edge = reference := by
  rw [← mem_found_iff, marked, List.map_flatMap, List.mem_flatMap, List.mem_map]
  simp only [mem_ofFile_iff]
  constructor
  · intro given
    obtain ⟨path, -, entry, member⟩ := given
    exact ⟨_, member, rfl⟩
  · intro given
    obtain ⟨⟨own, path, entry⟩, member, rfl⟩ := given
    exact ⟨path, mem_paths_of_mem_found member, entry, member⟩

/-- The sources of all edges are present in a graph that is wired. -/
theorem exists_mem_marked_iff {graph : Graph} (wired : graph.Wired)
    {reference : WrittenReference}
    : (∃ finding, (reference, finding) ∈ marked graph)
      ↔ ∃ edge ∈ graph.edges,
          graph.isBroken edge = true ∧ WrittenReference.ofEdge edge = reference := by
  have listed
      : (∃ finding, (reference, finding) ∈ marked graph)
        ↔ reference ∈ (marked graph).map Prod.fst := by
    simp only [List.mem_map, Prod.exists, exists_and_right, exists_eq_right]
  rw [listed, mem_map_fst_marked_iff, and_iff_right_iff_imp]
  intro given
  obtain ⟨edge, member, -, rfl⟩ := given
  exact wired.sources edge member

/-- What a file holds was found there, and may be marked. -/
theorem exists_of_mem_ofFile {graph : Graph} {path : String}
    {entry : WrittenReference × Finding} (member : entry ∈ ofFile graph path)
    : ∃ letters line finding mark,
        (entry.1, letters) ∈ graph.brokenReferences
        ∧ finding? graph entry.1 letters = some (path, line, finding)
        ∧ entry.2 = { finding with suppressed := mark } := by
  obtain ⟨own, listed, mark, rfl⟩ := exists_of_mem_spendMarked member
  rw [List.mem_mergeSort] at listed
  obtain ⟨⟨reference, other, line, finding⟩, filtered, rfl⟩ := List.mem_map.mp listed
  obtain ⟨present, here⟩ := List.mem_filter.mp filtered
  obtain rfl := eq_of_beq here
  obtain ⟨⟨written, letters⟩, broken, read⟩ := List.mem_filterMap.mp present
  obtain ⟨_, read, taken⟩ := Option.map_eq_some_iff.mp read
  cases taken
  exact ⟨letters, line, finding, mark, broken, read, rfl⟩

/-- A broken reference is an error of the rule, announced or not. -/
theorem error_of_mem_marked {graph : Graph} {entry : WrittenReference × Finding}
    (member : entry ∈ marked graph)
    : entry.2.rule = "broken_reference" ∧ entry.2.severity = .error := by
  obtain ⟨path, -, inFile⟩ := List.mem_flatMap.mp member
  obtain ⟨letters, line, finding, mark, -, read, same⟩ := exists_of_mem_ofFile inFile
  obtain ⟨node, -, made⟩ := Option.map_eq_some_iff.mp read
  cases made
  rw [same]
  exact ⟨rfl, rfl⟩

end BrokenReference

end Traceability
