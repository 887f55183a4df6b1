import Traceability.Proofs.Graph.Measures
import Traceability.Proofs.Graph.Blocks

/-! Which nodes have changed.
A summary lists paths, and a node is flagged if the path of its file is listed once a mention of the
current directory is dropped from it. Nothing is dropped from the paths of the summary, so one that
starts with such a mention is compared as it stands.
-/

namespace Traceability

-----------------------------------------------------------------------------------------
-- Sorts of change
-----------------------------------------------------------------------------------------

/-- Flags that tell of no change are the flags of a file that has not changed. -/
theorem ChangeFlags.eq_of_not_any {flags : ChangeFlags} (none : ¬ flags.any = true)
    : flags = {} := by
  obtain ⟨modified, untracked, branchChanged⟩ := flags
  revert none
  cases modified <;> cases untracked <;> cases branchChanged <;> decide

/-- A sort of change that a summary tells apart. -/
inductive Change where
  | modified
  | untracked
  | branchChanged

namespace Change

/-- Whether the flags tell this sort of change. -/
def flag (flags : ChangeFlags) : Change → Bool
  | .modified => flags.modified
  | .untracked => flags.untracked
  | .branchChanged => flags.branchChanged

/-- The paths that are listed for this sort of change. -/
def paths (summary : ChangeSummary) : Change → Std.ExtTreeSet String
  | .modified => summary.modified
  | .untracked => summary.untracked
  | .branchChanged => summary.branchChanged

theorem flag_flagsFor (change : Change) (summary : ChangeSummary) (path : String)
    : change.flag (summary.flagsFor path) = true
      ↔ ChangeSummary.normalize path ∈ change.paths summary := by
  cases change <;> exact Std.ExtTreeSet.contains_iff_mem

end Change

-----------------------------------------------------------------------------------------
-- Spellings of paths
-----------------------------------------------------------------------------------------

namespace ChangeSummary

/-- A path starts with a mention of the current directory. -/
def StartsHere (path : String) : Prop :=
  ['.', '/'] <+: path.toList

theorem normalize_here_append (path : String) : normalize ("./" ++ path) = path := by
  rw [normalize, String.toList_append]
  exact String.ofList_toList

theorem startsHere_iff {path : String} : StartsHere path ↔ ∃ rest, path = "./" ++ rest := by
  constructor
  · rintro ⟨rest, front⟩
    refine ⟨String.ofList rest, String.toList_inj.mp ?_⟩
    rw [← front, String.toList_append, String.toList_ofList, String.toList_ofList]
  · rintro ⟨rest, rfl⟩
    rw [StartsHere, String.toList_append]
    exact List.prefix_append _ _

theorem normalize_eq_self {path : String} (plain : ¬ StartsHere path) : normalize path = path := by
  rw [normalize]
  split
  · next rest written => exact absurd ⟨rest, written.symm⟩ plain
  · rfl

/-- A path is listed, one mention of the current directory aside at the start of either. -/
def Lists (paths : Std.ExtTreeSet String) (path : String) : Prop :=
  ∃ listed ∈ paths, normalize listed = normalize path

/-- No path of a finite set is longer than some number. -/
theorem exists_length_le (paths : Std.ExtTreeSet String)
    : ∃ bound, ∀ path : String, path ∈ paths → path.length ≤ bound :=
  ⟨(paths.toList.map String.length).sum, fun _ member =>
    List.le_sum_of_mem (List.mem_map_of_mem (Std.ExtTreeSet.mem_toList.mpr member))⟩

/-- Looking up what is left of a path finds what is listed, for all paths, exactly if no listed path
starts with a mention of the current directory. Witness: a listed path that does would have to be
listed with one more such mention in front, and so on without end. -/
theorem forall_mem_iff_lists_iff (paths : Std.ExtTreeSet String)
    : (∀ path, normalize path ∈ paths ↔ Lists paths path)
      ↔ ∀ listed ∈ paths, ¬ StartsHere listed := by
  constructor
  · intro agree
    have longer (listed : String) (member : listed ∈ paths) (here : StartsHere listed)
        : "./" ++ listed ∈ paths := by
      have found : normalize ("./" ++ listed) ∈ paths :=
        (normalize_here_append listed).symm ▸ member
      obtain ⟨other, there, same⟩ := (agree _).mp found
      rw [normalize_here_append] at same
      by_cases again : StartsHere other
      · obtain ⟨rest, rfl⟩ := startsHere_iff.mp again
        rw [normalize_here_append] at same
        exact same ▸ there
      · rw [normalize_eq_self again] at same
        exact absurd (same ▸ here) again
    intro listed member here
    have long (n : Nat) : ∃ path ∈ paths, StartsHere path ∧ n ≤ path.length := by
      induction n with
      | zero => exact ⟨listed, member, here, Nat.zero_le _⟩
      | succ n ih =>
          obtain ⟨path, there, starts, enough⟩ := ih
          refine ⟨"./" ++ path, longer path there starts, startsHere_iff.mpr ⟨path, rfl⟩, ?_⟩
          rw [String.length_append]
          have two : "./".length = 2 := by decide
          omega
    obtain ⟨bound, fits⟩ := exists_length_le paths
    obtain ⟨path, there, -, tooLong⟩ := long (bound + 1)
    exact absurd (fits path there) (Nat.not_le_of_lt tooLong)
  · intro plain path
    constructor
    · intro member
      exact ⟨normalize path, member, normalize_eq_self (plain _ member)⟩
    · rintro ⟨listed, member, same⟩
      rw [normalize_eq_self (plain listed member)] at same
      exact same ▸ member

end ChangeSummary

-----------------------------------------------------------------------------------------
-- Flags of nodes
-----------------------------------------------------------------------------------------

namespace Graph

open ChangeSummary

/-- The flags of a node. None is set if the node has no metrics. -/
def changesOf (graph : Graph) (id : String) : ChangeFlags :=
  (graph.metrics[id]?.map Metrics.changes).getD {}

/-- Changes are recorded beside what the metrics hold already. -/
theorem parts_recordChanges (graph : Graph) (summary : ChangeSummary) (id : String)
    : (graph.recordChanges summary).metrics[id]?.bind Metrics.coverage
        = graph.metrics[id]?.bind Metrics.coverage
      ∧ (graph.recordChanges summary).metrics[id]?.bind Metrics.hash
        = graph.metrics[id]?.bind Metrics.hash := by
  have recorded := graph.metrics_annotate (.changes summary) id
  rw [annotate] at recorded
  rw [recorded]
  cases edited : (graph.node? id).bind
      (fun node => (Measure.changes summary).edit graph node) with
  | none => exact ⟨rfl, rfl⟩
  | some f =>
      obtain ⟨node, -, made⟩ := Option.bind_eq_some_iff.mp edited
      simp only [Measure.edit, Option.ite_none_right_eq_some, Option.some.injEq] at made
      obtain ⟨-, rfl⟩ := made
      cases graph.metrics[id]? <;> exact ⟨rfl, rfl⟩

theorem changesOf_recordChanges {graph : Graph} {node : Node} (member : node ∈ graph.nodeList)
    (clean : graph.changesOf node.id = {}) (summary : ChangeSummary)
    : (graph.recordChanges summary).changesOf node.id = summary.flagsFor node.source.path := by
  have recorded := graph.metrics_annotate (.changes summary) node.id
  rw [annotate, mem_nodeList_iff.mp member, Option.bind_some, Measure.edit] at recorded
  rw [changesOf, recorded]
  split
  · rfl
  · next none => exact clean.trans (ChangeFlags.eq_of_not_any none).symm

/-- In a graph without flags a node is flagged for a sort of change exactly if what is left of its
path is listed. That is whether its path is listed, one mention of the current directory aside on
either side, for all paths exactly if no listed path starts with such a mention. Coverage and hash
status stay as they are, and so does everything but the metrics of nodes. -/
theorem recordChanges_flags_exact {graph : Graph} (clean : ∀ id, graph.changesOf id = {})
    (summary : ChangeSummary)
    : let after := graph.recordChanges summary
      (∀ node ∈ graph.nodeList, ∀ change : Change,
        change.flag (after.changesOf node.id) = true
          ↔ normalize node.source.path ∈ change.paths summary)
      ∧ (∀ change : Change,
          (∀ path,
              normalize path ∈ change.paths summary ↔ Lists (change.paths summary) path)
            ↔ ∀ listed ∈ change.paths summary, ¬ StartsHere listed)
      ∧ (∀ id : String,
          after.metrics[id]?.bind Metrics.coverage = graph.metrics[id]?.bind Metrics.coverage
          ∧ after.metrics[id]?.bind Metrics.hash = graph.metrics[id]?.bind Metrics.hash)
      ∧ (∀ id : String, graph.node? id = none → after.metrics[id]? = graph.metrics[id]?)
      ∧ graph.SameButMetrics after := by
  intro after
  refine ⟨fun node member change => ?_, fun change => forall_mem_iff_lists_iff _,
    graph.parts_recordChanges summary, fun id absent => ?_, ?_⟩
  · rw [changesOf_recordChanges member (clean node.id), Change.flag_flagsFor]
  · have recorded := graph.metrics_annotate (.changes summary) id
    rw [absent] at recorded
    exact recorded
  · obtain ⟨metrics, only⟩ := graph.recordChanges_eq summary
    rw [show after = { graph with metrics } from only]
    exact ⟨rfl, rfl, rfl, rfl, rfl⟩

/-- A file that is named with a mention of the current directory, and one that is not. -/
def dottedFiles : SourceSet where
  files := [
    ⟨"./spec.md", "# REQ-p00001: Login\n*End* *Login*\n"⟩,
    ⟨"login.rs", "// Implements: REQ-p00001\n"⟩]

/-- Nothing is recorded of an assembled graph. -/
theorem changesOf_ofSources (scheme : Scheme) (sources : SourceSet) (id : String)
    : (ofSources scheme sources).changesOf id = {} := by
  rw [changesOf, ofSources, metrics_assemble, Std.ExtTreeMap.getElem?_empty]
  rfl

theorem recordChanges_flags_exact_dottedFiles
    : let graph := ofSources Config.defaultScheme dottedFiles
      let after := graph.recordChanges { modified := {"spec.md"} }
      (∀ id, graph.changesOf id = {})
      ∧ ∃ node ∈ graph.nodeList,
          node.source.path = "./spec.md"
          ∧ Lists {"spec.md"} node.source.path
          ∧ (after.changesOf node.id).modified = true
          ∧ (after.changesOf node.id).untracked = false := by
  intro graph after
  have clean := changesOf_ofSources Config.defaultScheme dottedFiles
  obtain ⟨flags, agree, -⟩ := recordChanges_flags_exact clean { modified := {"spec.md"} }
  have evaluated : ∃ node ∈ graph.nodeList, node.source.path = "./spec.md" := by decide +kernel
  obtain ⟨node, member, path⟩ := evaluated
  have plain (listed : String) (there : listed ∈ ({"spec.md"} : Std.ExtTreeSet String))
      : ¬ StartsHere listed := by
    obtain rfl : "spec.md" = listed := by simpa using there
    simp [StartsHere]
  have listed : normalize node.source.path ∈ ({"spec.md"} : Std.ExtTreeSet String) := by
    rw [path]
    decide
  refine ⟨clean, node, member, path, ((agree .modified).mpr plain _).mp listed,
    (flags node member .modified).mpr listed, ?_⟩
  refine Bool.eq_false_iff.mpr (fun untracked => ?_)
  have none := (flags node member .untracked).mp untracked
  exact Std.ExtTreeSet.not_mem_empty none

/-- A path that the summary lists just as the file is named is not found. -/
theorem not_flagged_dottedFiles
    : let graph := ofSources Config.defaultScheme dottedFiles
      let after := graph.recordChanges { modified := {"./spec.md"} }
      (∀ id, graph.changesOf id = {})
      ∧ ∃ node ∈ graph.nodeList,
          node.source.path = "./spec.md"
          ∧ Lists {"./spec.md"} node.source.path
          ∧ (after.changesOf node.id).modified = false := by
  intro graph after
  have evaluated
      : ∃ node ∈ graph.nodeList,
          node.source.path = "./spec.md" ∧ (after.changesOf node.id).modified = false := by
    decide +kernel
  obtain ⟨node, member, path, unset⟩ := evaluated
  exact ⟨changesOf_ofSources _ _, node, member, path,
    ⟨"./spec.md", by decide, by rw [path]⟩, unset⟩

end Graph

end Traceability
