import Traceability.Proofs.Config.Compile
import Traceability.Proofs.Rule.Metadata
import Traceability.Proofs.Rule.Rearranged
import Traceability.Proofs.Rule.Report
import Traceability.Run

/-! The order in which rules run.
Findings are sorted by place, rule and node, and those that the order does not tell apart stay as
they were found. Such findings carry the same name, and no two standard rules give out the same
name, so they come from one rule, whose findings are in its own order however often it runs.
-/

namespace Traceability

-----------------------------------------------------------------------------------------
-- Stable sorting
-----------------------------------------------------------------------------------------

section Sorting

variable {α : Type} {cmp : α → α → Ordering} [Std.TransCmp cmp]

/-- The items that the order does not tell apart from an item. -/
def tied (cmp : α → α → Ordering) (item : α) (items : List α) : List α :=
  items.filter (fun other => cmp item other = .eq)

/-- Sorting leaves tied items in their order. Witness: they are sorted already, and a sorted part
of a list stays a part of it. -/
theorem tied_mergeSort (item : α) (items : List α)
    : tied cmp item (items.mergeSort (fun a b => (cmp a b).isLE)) = tied cmp item items := by
  have sorted : (tied cmp item items).Pairwise (fun a b => (cmp a b).isLE) := by
    refine List.pairwise_of_forall_mem_list (fun a member b other => ?_)
    have first : cmp item a = .eq := of_decide_eq_true (List.mem_filter.mp member).2
    have second : cmp item b = .eq := of_decide_eq_true (List.mem_filter.mp other).2
    rw [← Std.TransCmp.congr_left first, second]
    rfl
  have kept : (tied cmp item items).Sublist (items.mergeSort (fun a b => (cmp a b).isLE)) :=
    List.sublist_mergeSort (fun _ _ _ => Std.TransCmp.isLE_trans) isLE_or_isLE_swap sorted
      List.filter_sublist
  have within := kept.filter (fun other => cmp item other = .eq)
  rw [tied, List.filter_filter] at within
  simp only [Bool.and_self] at within
  exact (within.eq_of_length ((List.mergeSort_perm items _).symm.filter _).length_eq).symm

theorem mem_tied_self (cmp : α → α → Ordering) [Std.TransCmp cmp] {item : α} {items : List α}
    : item ∈ tied cmp item items ↔ item ∈ items := by
  simp [tied, Std.ReflCmp.compare_self]

/-- A sorted list is determined by the order of tied items. Witness: the first items of both lists
are tied, so they are the same, by induction. -/
theorem eq_of_tied_eq {items other : List α} (sorted : items.Pairwise (fun a b => (cmp a b).isLE))
    (sortedOther : other.Pairwise (fun a b => (cmp a b).isLE))
    (same : ∀ item, tied cmp item items = tied cmp item other)
    : items = other := by
  have mem_iff (item : α) : item ∈ items ↔ item ∈ other := by
    rw [← mem_tied_self cmp, same item, mem_tied_self cmp]
  induction items generalizing other with
  | nil =>
      exact (List.eq_nil_iff_forall_not_mem.mpr fun item =>
        (mem_iff item).not.mp List.not_mem_nil).symm
  | cons first rest ih =>
      cases other with
      | nil => exact absurd ((mem_iff first).mp List.mem_cons_self) List.not_mem_nil
      | cons head tail =>
          have least {a b : α} {list : List α} (member : b ∈ a :: list)
              (ordered : (a :: list).Pairwise (fun a b => (cmp a b).isLE)) : (cmp a b).isLE := by
            rcases List.mem_cons.mp member with rfl | later
            · exact Std.ReflCmp.isLE_rfl
            · exact (List.pairwise_cons.mp ordered).1 b later
          have equal : cmp first head = .eq :=
            Std.OrientedCmp.isLE_antisymm
              (least ((mem_iff head).mpr List.mem_cons_self) sorted)
              (least ((mem_iff first).mp List.mem_cons_self) sortedOther)
          have heads := same first
          simp only [tied, List.filter_cons, Std.ReflCmp.compare_self, equal, decide_true,
            if_true] at heads
          obtain ⟨rfl, -⟩ := List.cons.inj heads
          have tails (item : α) : tied cmp item rest = tied cmp item tail := by
            have both := same item
            rw [tied, tied, List.filter_cons, List.filter_cons] at both
            split at both
            · exact (List.cons.inj both).2
            · exact both
          rw [ih (List.pairwise_cons.mp sorted).2 (List.pairwise_cons.mp sortedOther).2 tails]
          intro item
          rw [← mem_tied_self cmp, tails item, mem_tied_self cmp]

end Sorting

-----------------------------------------------------------------------------------------
-- Sorted findings
-----------------------------------------------------------------------------------------

instance : Std.TransCmp (compare : Location → Location → Ordering) :=
  inferInstanceAs (Std.TransCmp (compareLex (compareOn Location.path)
    (compareLex (compareOn Location.startLine) (compareOn Location.endLine))))

namespace Finding

instance : Std.TransCmp order :=
  inferInstanceAs (Std.TransCmp (compareLex _ (compareLex _ _)))

theorem pairwise_sort (findings : List Finding)
    : (sort findings).Pairwise (fun a b => order a b ≠ .gt) :=
  (pairwise_mergeSort_isLE findings).imp (fun before => Ordering.isLE_iff_ne_gt.mp before)

theorem sort_eq_of_tied_eq {findings other : List Finding}
    (same : ∀ finding, tied order finding findings = tied order finding other)
    : sort findings = sort other := by
  refine eq_of_tied_eq (pairwise_mergeSort_isLE findings) (pairwise_mergeSort_isLE other) ?_
  intro finding
  rw [sort, sort, tied_mergeSort, tied_mergeSort, same]

/-- Tied findings carry the same name. -/
theorem rule_eq_of_order_eq {finding other : Finding} (equal : order finding other = .eq)
    : finding.rule = other.rule := by
  simp only [order, compareLex_eq_eq, compareOn, Std.LawfulEqCmp.compare_eq_iff_eq] at equal
  exact equal.2.1

end Finding

-----------------------------------------------------------------------------------------
-- The names of findings
-----------------------------------------------------------------------------------------

namespace Rule

/-- The names that the findings of the standard rule with a name carry. -/
def findingNames : String → List String
  | "format.metadata" =>
      ["format.missing_metadata", "format.missing_field", "format.unknown_status",
        "format.level_mismatch"]
  | "hash" => ["hash.mismatch", "hash.missing"]
  | name => [name]

theorem pairwise_disjoint_findingNames
    : standard.Pairwise (fun a b => (findingNames a.name).Disjoint (findingNames b.name)) := by
  have names
      : (standard.map Rule.name).Pairwise (fun a b =>
          ∀ name ∈ findingNames a, name ∉ findingNames b) := by
    decide +kernel
  exact (List.pairwise_map.mp names).imp (fun apart name first second => apart name first second)

variable {context : RuleContext} {finding : Finding}

theorem rule_of_mem_duplicateId (found : finding ∈ duplicateId.check context)
    : finding.rule = "duplicate_id" := by
  obtain ⟨duplicate, -, rfl⟩ := List.mem_map.mp found
  rfl

theorem rule_of_mem_brokenReference (found : finding ∈ brokenReference.check context)
    : finding.rule = "broken_reference" := by
  have listed : finding ∈ (BrokenReference.marked context.graph).map Prod.snd :=
    BrokenReference.check_eq context ▸ found
  obtain ⟨entry, member, rfl⟩ := List.mem_map.mp listed
  exact (BrokenReference.error_of_mem_marked member).1

theorem rule_of_mem_orphan (found : finding ∈ orphan.check context)
    : finding.rule = "orphan" := by
  rcases List.mem_append.mp found with cutOff | unaddressed
  · obtain ⟨node, -, rfl⟩ := List.mem_map.mp cutOff
    rfl
  · obtain ⟨node, -, rfl⟩ := List.mem_map.mp unaddressed
    rfl

theorem rule_of_mem_hierarchy (found : finding ∈ hierarchy.check context)
    : finding.rule = "hierarchy" := by
  obtain ⟨node, -, member⟩ := List.mem_flatMap.mp found
  cases known : context.scheme.levelOf? node with
  | none =>
      rw [known] at member
      cases member
  | some level =>
      rw [known] at member
      obtain ⟨⟨kind, parent⟩, -, made⟩ := List.mem_filterMap.mp member
      obtain ⟨parentLevel, -, made⟩ := Option.bind_eq_some_iff.mp made
      split at made
      · cases made
      · cases made
        rfl

theorem rule_of_mem_cycle (found : finding ∈ cycle.check context)
    : finding.rule = "cycle" := by
  obtain ⟨members, -, made⟩ := List.mem_filterMap.mp found
  obtain ⟨id, -, made⟩ := Option.bind_eq_some_iff.mp made
  obtain ⟨first, -, made⟩ := Option.bind_eq_some_iff.mp made
  cases made
  rfl

theorem rule_of_mem_assertionSequence (found : finding ∈ assertionSequence.check context)
    : finding.rule = "format.assertion_sequence" := by
  obtain ⟨node, -, made⟩ := List.mem_filterMap.mp found
  obtain ⟨departure, -, rfl⟩ := Option.map_eq_some_iff.mp made
  rfl

theorem rule_of_mem_metadata (found : finding ∈ metadata.check context)
    : finding.rule ∈ findingNames metadata.name := by
  obtain ⟨node, -, member⟩ := List.mem_flatMap.mp found
  cases Metadata.mem_findings_iff.mp member <;> simp [findingNames, metadata, Node.finding,
    Metadata.absentFinding, Metadata.missingFinding, Metadata.unknownStatusFinding,
    Metadata.unknownLevelFinding, Metadata.otherLevelFinding]

theorem rule_of_mem_storedHash (found : finding ∈ storedHash.check context)
    : finding.rule ∈ findingNames storedHash.name := by
  obtain ⟨node, -, made⟩ := List.mem_filterMap.mp found
  simp only [StoredHash.finding?] at made
  split at made
  · cases made
  · cases made
    simp [findingNames, storedHash, Node.finding]
  · cases made
    simp [findingNames, storedHash, Node.finding]

/-- The findings of a standard rule carry the names of the rule. -/
theorem rule_mem_findingNames {rule : Rule} (member : rule ∈ standard)
    (found : finding ∈ rule.check context)
    : finding.rule ∈ findingNames rule.name := by
  simp only [standard, List.mem_cons, List.not_mem_nil, or_false] at member
  rcases member with rfl | rfl | rfl | rfl | rfl | rfl | rfl | rfl
  · exact List.mem_singleton.mpr (rule_of_mem_duplicateId found)
  · exact List.mem_singleton.mpr (rule_of_mem_brokenReference found)
  · exact List.mem_singleton.mpr (rule_of_mem_orphan found)
  · exact List.mem_singleton.mpr (rule_of_mem_hierarchy found)
  · exact List.mem_singleton.mpr (rule_of_mem_cycle found)
  · exact List.mem_singleton.mpr (rule_of_mem_assertionSequence found)
  · exact rule_of_mem_metadata found
  · exact rule_of_mem_storedHash found

-----------------------------------------------------------------------------------------
-- Reports
-----------------------------------------------------------------------------------------

theorem report_eq (rules : List Rule) (context : RuleContext)
    : report rules context
      = { violations := Finding.sort ((rules.flatMap (fun rule => rule.check context)).filter
            (fun finding => !finding.suppressed))
          suppressed := Finding.sort ((rules.flatMap (fun rule => rule.check context)).filter
            Finding.suppressed) } := by
  rw [report, List.partition_eq_filter_filter]
  rfl

/-- Two rules that both have a finding tied with a given one are the same rule. -/
theorem eq_or_tied_eq_nil {rule other : Rule} (member : rule ∈ standard)
    (memberOther : other ∈ standard) (context : RuleContext) (finding : Finding)
    : rule = other
      ∨ tied Finding.order finding (rule.check context) = []
      ∨ tied Finding.order finding (other.check context) = [] := by
  have symm : Std.Symm (fun a b : Rule => (findingNames a.name).Disjoint (findingNames b.name)) :=
    ⟨fun _ _ apart => apart.symm⟩
  by_cases same : rule = other
  · exact Or.inl same
  · have apart := pairwise_disjoint_findingNames.forall member memberOther same
    refine Or.inr (or_iff_not_imp_left.mpr fun some => ?_)
    obtain ⟨first, tiedFirst⟩ := List.exists_mem_of_ne_nil _ some
    obtain ⟨found, equal⟩ := List.mem_filter.mp tiedFirst
    refine List.filter_eq_nil_iff.mpr fun second foundOther equalOther => ?_
    have names : first.rule = second.rule :=
      (Finding.rule_eq_of_order_eq (of_decide_eq_true equal)).symm.trans
        (Finding.rule_eq_of_order_eq (of_decide_eq_true equalOther))
    exact apart (rule_mem_findingNames member found)
      (names ▸ rule_mem_findingNames memberOther foundOther)

/-- The order of rules has no say in the order of tied findings. -/
theorem tied_flatMap_eq_of_perm {rules other : List Rule} (perm : other.Perm rules)
    (builtIn : ∀ rule ∈ rules, rule ∈ standard) (context : RuleContext) (finding : Finding)
    : tied Finding.order finding (other.flatMap (fun rule => rule.check context))
      = tied Finding.order finding (rules.flatMap (fun rule => rule.check context)) := by
  rw [tied, tied, List.filter_flatMap, List.filter_flatMap]
  refine (flatMap_eq_of_perm perm.symm ?_).symm
  refine List.pairwise_of_forall_mem_list fun rule member second memberSecond => ?_
  exact eq_or_tied_eq_nil (builtIn rule member) (builtIn second memberSecond) context finding

/-- The order of rules has no say in the sorted findings of one kind. -/
theorem sort_filter_eq_of_perm {rules other : List Rule} (perm : other.Perm rules)
    (builtIn : ∀ rule ∈ rules, rule ∈ standard) (context : RuleContext) (keep : Finding → Bool)
    : Finding.sort ((other.flatMap (fun rule => rule.check context)).filter keep)
      = Finding.sort ((rules.flatMap (fun rule => rule.check context)).filter keep) := by
  refine Finding.sort_eq_of_tied_eq fun finding => ?_
  have swap (found : List Finding)
      : tied Finding.order finding (found.filter keep)
        = (tied Finding.order finding found).filter keep := by
    rw [tied, tied, List.filter_filter, List.filter_filter]
    exact List.filter_congr fun _ _ => Bool.and_comm _ _
  rw [swap, swap, tied_flatMap_eq_of_perm perm builtIn]

end Rule

namespace Report

/-- The report holds findings without loss or addition, each list in order. -/
structure Collects (report : Report) (found : List Finding) : Prop where
  all : (report.violations ++ report.suppressed).Perm found
  plain : ∀ finding ∈ report.violations, finding.suppressed = false
  marked : ∀ finding ∈ report.suppressed, finding.suppressed = true
  violationsSorted : report.violations.Pairwise (fun a b => Finding.order a b ≠ .gt)
  suppressedSorted : report.suppressed.Pairwise (fun a b => Finding.order a b ≠ .gt)

end Report

namespace Rule

theorem collects_report (rules : List Rule) (context : RuleContext)
    : (report rules context).Collects (rules.flatMap (fun rule => rule.check context)) := by
  rw [report_eq]
  exact {
    all := by
      refine (List.perm_append_comm.trans ?_)
      refine ((List.mergeSort_perm _ _).append (List.mergeSort_perm _ _)).trans ?_
      exact List.filter_append_perm Finding.suppressed _
    plain := fun finding member => by
      have kept := (List.mem_filter.mp (Finding.mem_sort_iff.mp member)).2
      rwa [Bool.not_eq_true'] at kept
    marked := fun finding member => (List.mem_filter.mp (Finding.mem_sort_iff.mp member)).2
    violationsSorted := Finding.pairwise_sort _
    suppressedSorted := Finding.pairwise_sort _
  }

/-- A report holds what the rules find, and rules in another order give the same report, also if
some of them are registered several times. -/
theorem report_collects_and_ignores_order (rules : List Rule)
    (builtIn : ∀ rule ∈ rules, rule ∈ standard) (context : RuleContext)
    : (report rules context).Collects (rules.flatMap (fun rule => rule.check context))
      ∧ ∀ other : List Rule, other.Perm rules → report other context = report rules context := by
  refine ⟨collects_report rules context, fun other perm => ?_⟩
  rw [report_eq, report_eq, sort_filter_eq_of_perm perm builtIn,
    sort_filter_eq_of_perm perm builtIn]

/-- A requirement whose metadata line gives neither a level nor a status. -/
def blankMetadata : SourceSet where
  files := [⟨"spec.md", "# REQ-p00001: Login\n**Level**: | **Status**:\n*End* *Login*\n"⟩]

/-- What rules see of the requirement. -/
def blankContext : RuleContext where
  graph := Graph.ofSources Config.defaultScheme blankMetadata
  scheme := Config.defaultScheme
  coverage := (Graph.ofSources Config.defaultScheme blankMetadata).coverage

/-- The findings on the metadata line are tied and differ, and the rule runs twice. -/
theorem report_collects_and_ignores_order_blankContext
    : let rules := [metadata, storedHash, metadata]
      (∀ rule ∈ rules, rule ∈ standard)
      ∧ (rules.flatMap (fun rule => rule.check blankContext)).map Finding.message
        = ["REQ-p00001 metadata is missing level", "REQ-p00001 metadata is missing status",
            "REQ-p00001 has no stored hash",
            "REQ-p00001 metadata is missing level", "REQ-p00001 metadata is missing status"]
      ∧ report [storedHash, metadata, metadata] blankContext = report rules blankContext := by
  have builtIn : ∀ rule ∈ [metadata, storedHash, metadata], rule ∈ standard := by
    simp [standard]
  have found
      : ([metadata, storedHash, metadata].flatMap (fun rule => rule.check blankContext)).map
            Finding.message
        = ["REQ-p00001 metadata is missing level", "REQ-p00001 metadata is missing status",
            "REQ-p00001 has no stored hash",
            "REQ-p00001 metadata is missing level", "REQ-p00001 metadata is missing status"] := by
    decide +kernel
  exact ⟨builtIn, found,
    (report_collects_and_ignores_order _ builtIn blankContext).2 _ (.swap metadata storedHash _)⟩

end Rule

end Traceability
