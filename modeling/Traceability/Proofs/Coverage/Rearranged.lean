import Traceability.Proofs.Graph.Rearranged

/-! Coverage does not depend on the order of files.
Which requirements lead to which is a matter of entries and of the set of edges, and so are the
cycles, what counts as evidence, and the coverage of each requirement.
-/

namespace Traceability.Graph

variable {scheme : Scheme} {graph other : Graph}

namespace Rearranged

theorem leads_iff (rearranged : graph.Rearranged other) {source target : String}
    : other.Leads source target ↔ graph.Leads source target := by
  simp only [Leads, rearranged.entries.isRequirement_iff, rearranged.mem_edges_iff,
    rearranged.entries.names_iff]

theorem cycles_eq (rearranged : graph.Rearranged other) : other.cycles = graph.cycles :=
  cycles_congr (fun _ _ => rearranged.leads_iff)

theorem evidence_iff (rearranged : graph.Rearranged other) {edge : Edge}
    : other.Evidence edge ↔ graph.Evidence edge :=
  rearranged.entries.roles.evidence_iff rearranged.cycles_eq

theorem declaredCoverage_eq (rearranged : graph.Rearranged other) (node : Node)
    : other.declaredCoverage node = graph.declaredCoverage node := by
  have letters (letter : String)
      : other.CoversLetter node.id letter ↔ graph.CoversLetter node.id letter := by
    simp only [CoversLetter, rearranged.mem_edges_iff, rearranged.evidence_iff]
  have whole : other.CoversWhole node.id ↔ graph.CoversWhole node.id := by
    simp only [CoversWhole, rearranged.mem_edges_iff, rearranged.evidence_iff]
  rw [declaredCoverage, declaredCoverage]
  simp only [letters, whole]

/-- Each requirement has the same coverage, and the cycles are the same. -/
theorem coverage_eq (rearranged : graph.Rearranged other) (faithful : graph.Faithful scheme)
    (faithfulOther : other.Faithful scheme)
    : other.coverage = graph.coverage := by
  have declared {any : Graph} (faithful : any.Faithful scheme)
      : any.coverage
        = ⟨(any.entriesOfKind .requirement).map any.declaredCoverage, any.cycles⟩ := by
    rw [coverage, entriesOfKind, List.map_map]
    exact congrArg (CoverageReport.mk · any.cycles)
      (List.map_congr_left (fun node member => faithful.requirementCoverage_eq member))
  rw [declared faithful, declared faithfulOther, rearranged.entries.entriesOfKind_eq,
    rearranged.cycles_eq]
  exact congrArg (CoverageReport.mk · graph.cycles)
    (List.map_congr_left (fun node _ => rearranged.declaredCoverage_eq node))

end Rearranged

end Traceability.Graph
