import Traceability.Proofs.Graph.Nodes
import Traceability.Run

/-! Metrics beside the graph.
Recording them changes nothing else of a graph, and they are recorded of its nodes only.
-/

namespace Traceability.Graph

-----------------------------------------------------------------------------------------
-- Nothing but metrics changes
-----------------------------------------------------------------------------------------

theorem updateMetrics_eq (graph : Graph) (id : String) (f : Metrics → Metrics)
    : ∃ metrics, graph.updateMetrics id f = { graph with metrics } := by
  rw [updateMetrics]
  split
  · exact ⟨_, rfl⟩
  · exact ⟨graph.metrics, rfl⟩

/-- Steps that change nothing but metrics change nothing but metrics together. -/
theorem foldl_metrics_eq {α : Type} (step : Graph → α → Graph)
    (only : ∀ (graph : Graph) (a : α), ∃ metrics, step graph a = { graph with metrics })
    (items : List α) (graph : Graph)
    : ∃ metrics, items.foldl step graph = { graph with metrics } := by
  induction items generalizing graph with
  | nil => exact ⟨graph.metrics, rfl⟩
  | cons item rest ih =>
      obtain ⟨first, here⟩ := only graph item
      obtain ⟨metrics, later⟩ := ih (step graph item)
      exact ⟨metrics, by rw [List.foldl_cons, later, here]⟩

theorem recordCoverage_eq (graph : Graph) (report : CoverageReport)
    : ∃ metrics, graph.recordCoverage report = { graph with metrics } :=
  foldl_metrics_eq _ (fun graph _ => graph.updateMetrics_eq _ _) _ graph

theorem recordHashes_eq (graph : Graph) (length : Nat)
    : ∃ metrics, graph.recordHashes length = { graph with metrics } :=
  foldl_metrics_eq _ (fun graph _ => graph.updateMetrics_eq _ _) _ graph

theorem recordChanges_eq (graph : Graph) (summary : ChangeSummary)
    : ∃ metrics, graph.recordChanges summary = { graph with metrics } := by
  refine foldl_metrics_eq _ (fun graph node => ?_) _ graph
  simp only
  split
  · exact graph.updateMetrics_eq _ _
  · exact ⟨graph.metrics, rfl⟩

-----------------------------------------------------------------------------------------
-- Only nodes have metrics
-----------------------------------------------------------------------------------------

/-- Whatever has metrics is a node. -/
def Measured (graph : Graph) : Prop :=
  ∀ id metrics, graph.metrics[id]? = some metrics → graph.contains id = true

theorem measured_empty : ({} : Graph).Measured := by
  intro id metrics found
  rw [Std.ExtTreeMap.getElem?_empty] at found
  cases found

theorem Measured.updateMetrics {graph : Graph} (measured : graph.Measured) (id : String)
    (f : Metrics → Metrics)
    : (graph.updateMetrics id f).Measured := by
  intro other metrics found
  rw [Graph.updateMetrics] at found ⊢
  split at found
  · next present =>
      simp only [present, if_true]
      rw [Std.ExtTreeMap.getElem?_alter] at found
      split at found
      · next same =>
          cases Std.LawfulEqCmp.eq_of_compare same
          exact present
      · exact measured other metrics found
  · next absent =>
      simp only [absent, Bool.false_eq_true, if_false]
      exact measured other metrics found

theorem Measured.recordCoverage {graph : Graph} (measured : graph.Measured)
    (report : CoverageReport)
    : (graph.recordCoverage report).Measured :=
  List.foldlRecOn (motive := Measured) _ _ measured
    (fun _ measured _ _ => measured.updateMetrics _ _)

theorem Measured.recordChanges {graph : Graph} (measured : graph.Measured)
    (summary : ChangeSummary)
    : (graph.recordChanges summary).Measured := by
  refine List.foldlRecOn (motive := Measured) _ _ measured ?_
  intro current measured node _
  dsimp only
  split
  · exact measured.updateMetrics _ _
  · exact measured

end Traceability.Graph
