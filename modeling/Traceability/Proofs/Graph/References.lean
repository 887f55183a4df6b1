import Traceability.Proofs.Graph.Written

/-! References resolve wherever their target is defined.
An edge is recorded only at nodes that are present, but references become edges when all nodes
are, so the order of files does not matter. What stays unresolved is what no record defines.
-/

namespace Traceability

namespace Graph

/-- An assembled graph is an exact index of its edges. Every node records the positions of the
edges that leave it and of those that arrive, in ascending order, wherever the ends are defined.
Every edge leaves a node, no two edges say the same, and an edge is unresolved exactly if no
accepted record of any file defines its target. -/
theorem exact_assemble (scheme : Scheme) (files : List ParsedFile)
    : (∀ id node, (assemble scheme files).node? id = some node →
        node.outgoing.toList
            = positionsOf (fun edge => edge.source = id) (assemble scheme files).edges.toList
          ∧ node.incoming.toList
            = positionsOf (fun edge => edge.target = id) (assemble scheme files).edges.toList)
      ∧ (∀ edge ∈ (assemble scheme files).edges,
          (assemble scheme files).contains edge.source = true)
      ∧ (assemble scheme files).edges.toList.Pairwise (fun a b =>
          (a.source, a.target, a.kind, a.letters) ≠ (b.source, b.target, b.kind, b.letters))
      ∧ ∀ edge ∈ (assemble scheme files).edges,
          (assemble scheme files).isResolved edge = false
            ↔ ∀ record ∈ acceptedRecords files, edge.target ∉ record.ids := by
  have attached := attached_assemble scheme files
  refine ⟨?_, ?_, ?_, ?_⟩
  · intro id node found
    exact ⟨attached.outgoing id node found, attached.incoming id node found⟩
  · intro edge member
    exact contains_source_assemble member
  · refine attached.distinct.imp (fun {a b} different same => ?_)
    simp only [Prod.mk.injEq] at same
    obtain ⟨source, target, kind, letters⟩ := same
    simp [Edge.same, source, target, kind, letters] at different
  · intro edge _
    rw [isResolved, ← Bool.not_eq_true, contains_assemble_iff, not_exists]
    simp only [not_and]

end Graph

end Traceability
