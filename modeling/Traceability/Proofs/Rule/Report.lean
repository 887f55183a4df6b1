import Traceability.Proofs.Rule.Budget
import Traceability.Rule.Report

/-! When a report passes.
Sorting and splitting keep every finding, so a report passes exactly if no rule found an error
that was not announced. What is added later counts in the same way.
-/

namespace Traceability

namespace Finding

/-- An error that was not announced. -/
def Decisive (finding : Finding) : Prop :=
  finding.severity = .error ∧ finding.suppressed = false

theorem mem_sort_iff {findings : List Finding} {finding : Finding}
    : finding ∈ sort findings ↔ finding ∈ findings :=
  List.mem_mergeSort

/-- What a check returns is no error that was not announced. -/
def Quiet (result : Option Finding) : Prop :=
  ∀ finding, result = some finding → ¬ finding.Decisive

theorem quiet_none : Quiet none := by
  simp [Quiet]

theorem quiet_some_iff {finding : Finding} : Quiet (some finding) ↔ ¬ finding.Decisive := by
  simp [Quiet]

/-- A check that makes an error of whatever it finds. -/
theorem quiet_map_iff {α : Type} {found : Option α} {make : α → Finding}
    (decisive : ∀ a, (make a).Decisive)
    : Quiet (found.map make) ↔ found = none := by
  cases found with
  | none => simp [quiet_none]
  | some a => simp [quiet_some_iff, decisive]

theorem filterMap_not_decisive_iff {α : Type} {items : List α} {check : α → Option Finding}
    : (∀ finding ∈ items.filterMap check, ¬ finding.Decisive)
      ↔ ∀ item ∈ items, Quiet (check item) := by
  simp only [List.mem_filterMap, forall_exists_index, and_imp, Quiet]
  exact ⟨fun silent item member finding found => silent finding item member found,
    fun quiet finding item member found => quiet item member finding found⟩

end Finding

theorem Node.decisive_finding_iff {node : Node} {rule message : String} {severity : Severity}
    : (node.finding rule severity message).Decisive ↔ severity = .error := by
  simp [finding, Finding.Decisive]

namespace Rule

/-- The rule finds no error that was not announced. -/
def Silent (context : RuleContext) (rule : Rule) : Prop :=
  ∀ finding ∈ rule.check context, ¬ finding.Decisive

theorem passed_report_iff (rules : List Rule) (context : RuleContext) (further : List Finding)
    (harmless : ∀ finding ∈ further, finding.severity ≠ .error)
    : ((report rules context).extend further).passed = true
      ↔ ∀ rule ∈ rules, Silent context rule := by
  have listed (finding : Finding)
      : finding ∈ ((report rules context).extend further).violations
        ↔ (∃ rule ∈ rules, finding ∈ rule.check context ∧ finding.suppressed = false)
          ∨ finding ∈ further := by
    simp only [Report.extend, report, Finding.mem_sort_iff, List.mem_append,
      List.partition_eq_filter_filter, List.mem_filter, List.mem_flatMap, Function.comp_apply,
      Bool.not_eq_true']
    refine or_congr_left ?_
    constructor
    · intro ⟨⟨rule, member, found⟩, plain⟩
      exact ⟨rule, member, found, plain⟩
    · intro ⟨rule, member, found, plain⟩
      exact ⟨⟨rule, member, found⟩, plain⟩
  rw [Report.passed, Bool.not_eq_true', List.any_eq_false]
  simp only [listed, decide_eq_true_eq]
  constructor
  · intro none rule member finding found ⟨error, plain⟩
    exact none finding (Or.inl ⟨rule, member, found, plain⟩) error
  · intro silent finding given error
    rcases given with ⟨rule, member, found, plain⟩ | added
    · exact silent rule member finding found ⟨error, plain⟩
    · exact harmless finding added error

/-- The references of the broken edges are announced. Witness: every broken reference has one
finding, so none is left unmarked exactly if that of each broken edge is marked. -/
theorem silent_brokenReference_iff {context : RuleContext} (wired : context.graph.Wired)
    : Silent context brokenReference
      ↔ ∀ edge ∈ context.graph.edges, context.graph.isBroken edge = true →
          ∃ finding,
            (WrittenReference.ofEdge edge, finding) ∈ BrokenReference.marked context.graph
            ∧ finding.suppressed = true := by
  have all
      : Silent context brokenReference
        ↔ ∀ entry ∈ BrokenReference.marked context.graph, entry.2.suppressed = true := by
    simp only [Silent, brokenReference, BrokenReference.check_eq, List.forall_mem_map]
    refine forall₂_congr (fun entry member => ?_)
    simp only [Finding.Decisive, (BrokenReference.error_of_mem_marked member).2, true_and,
      Bool.not_eq_false]
  rw [all]
  constructor
  · intro marked edge member broken
    obtain ⟨finding, listed⟩ :=
      (BrokenReference.exists_mem_marked_iff wired).mpr ⟨edge, member, broken, rfl⟩
    exact ⟨finding, listed, marked _ listed⟩
  · intro announced ⟨reference, finding⟩ listed
    obtain ⟨edge, member, broken, rfl⟩ :=
      (BrokenReference.exists_mem_marked_iff wired).mp ⟨finding, listed⟩
    obtain ⟨other, again, suppressed⟩ := announced edge member broken
    have same := List.inj_on_of_nodup_map (BrokenReference.marked_nodup context.graph)
      listed again rfl
    exact same ▸ suppressed

end Rule

end Traceability
