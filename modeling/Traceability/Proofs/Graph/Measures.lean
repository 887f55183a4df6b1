import Traceability.Proofs.Config.Compile
import Traceability.Proofs.Coverage.Definition
import Traceability.Proofs.Distinct
import Traceability.Proofs.Graph.Metrics

/-! Measures of a graph.
Coverage, hash status and changes are recorded in the metrics one after another. What each of them
does to the entry of a node follows from nodes and edges, which none of them changes, and each
writes a part of the entry that the others leave alone. So their order makes no difference.
-/

namespace Traceability

-----------------------------------------------------------------------------------------
-- Entries
-----------------------------------------------------------------------------------------

/-- An entry of the metrics after an edit, if there is one. An absent entry starts out empty. -/
def Metrics.amend (edit : Option (Metrics → Metrics)) (entry : Option Metrics) : Option Metrics :=
  match edit with
  | some f => some (f (entry.getD {}))
  | none => entry

theorem Metrics.amend_comm {first second : Option (Metrics → Metrics)}
    (apart : ∀ f ∈ first, ∀ g ∈ second, ∀ metrics, f (g metrics) = g (f metrics))
    (entry : Option Metrics)
    : amend first (amend second entry) = amend second (amend first entry) := by
  cases first with
  | none => rfl
  | some f =>
      cases second with
      | none => rfl
      | some g => exact congrArg some (apart f rfl g rfl _)

namespace Graph

theorem metrics_updateMetrics {graph : Graph} {id : String} (present : graph.contains id = true)
    (f : Metrics → Metrics) (other : String)
    : (graph.updateMetrics id f).metrics[other]?
      = Metrics.amend (if id = other then some f else none) graph.metrics[other]? := by
  rw [updateMetrics, if_pos present, Std.ExtTreeMap.getElem?_alter]
  simp only [Std.LawfulEqCmp.compare_eq_iff_eq]
  split
  · next same => rw [same, Metrics.amend]
  · rfl

theorem contains_updateMetrics (graph : Graph) (id : String) (f : Metrics → Metrics)
    (other : String)
    : (graph.updateMetrics id f).contains other = graph.contains other := by
  obtain ⟨metrics, only⟩ := graph.updateMetrics_eq id f
  rw [only]
  rfl

/-- Makes the edit of a node in its entry. -/
def amendEntry (edit : Node → Option (Metrics → Metrics)) (graph : Graph) (node : Node) : Graph :=
  match edit node with
  | some f => graph.updateMetrics node.id f
  | none => graph

section AmendEntry

variable {edit : Node → Option (Metrics → Metrics)}

theorem contains_amendEntry (graph : Graph) (node : Node) (id : String)
    : (graph.amendEntry edit node).contains id = graph.contains id := by
  rw [amendEntry]
  split
  · exact graph.contains_updateMetrics _ _ _
  · rfl

theorem metrics_amendEntry {graph : Graph} {node : Node} (present : graph.contains node.id = true)
    (id : String)
    : (graph.amendEntry edit node).metrics[id]?
      = Metrics.amend (if node.id = id then edit node else none) graph.metrics[id]? := by
  rw [amendEntry]
  split
  · next f edited => rw [metrics_updateMetrics present, edited]
  · next unchanged => rw [unchanged, ite_self, Metrics.amend]

/-- Of nodes with distinct identifiers each has its own entry edited. Witness: induction along the
nodes; the edits of the others pass an entry by. -/
theorem metrics_foldl_amendEntry {nodes : List Node} (distinct : (nodes.map Node.id).Nodup)
    {graph : Graph} (present : ∀ node ∈ nodes, graph.contains node.id = true) (id : String)
    : (nodes.foldl (amendEntry edit) graph).metrics[id]?
      = Metrics.amend ((nodes.find? (fun node => decide (node.id = id))).bind edit)
          graph.metrics[id]? := by
  induction nodes generalizing graph with
  | nil => rfl
  | cons node rest ih =>
      obtain ⟨new, distinct⟩ := List.nodup_cons.mp distinct
      obtain ⟨here, there⟩ := List.forall_mem_cons.mp present
      have still (other : Node) (member : other ∈ rest)
          : (graph.amendEntry edit node).contains other.id = true :=
        (graph.contains_amendEntry node _).trans (there other member)
      have further := ih distinct still
      rw [List.foldl_cons, further, metrics_amendEntry here, List.find?_cons]
      by_cases same : node.id = id
      · have none : rest.find? (fun node => decide (node.id = id)) = none := by
          refine List.find?_eq_none.mpr (fun other member twice => new ?_)
          exact same.trans (of_decide_eq_true twice).symm ▸ List.mem_map_of_mem member
        rw [none, if_pos same, decide_eq_true same]
        rfl
      · rw [if_neg same, decide_eq_false same]
        rfl

end AmendEntry

theorem find?_nodeList (graph : Graph) (id : String)
    : graph.nodeList.find? (fun node => decide (node.id = id)) = graph.node? id := by
  cases found : graph.node? id with
  | none =>
      refine List.find?_eq_none.mpr (fun node member same => ?_)
      rw [mem_nodeList_iff, of_decide_eq_true same, found] at member
      cases member
  | some node =>
      have own := id_of_node? found
      refine find?_eq_some_of_unique (mem_nodeList_iff.mpr (own ▸ found)) (decide_eq_true own) ?_
      intro other member same
      rw [mem_nodeList_iff, of_decide_eq_true same, found] at member
      exact (Option.some.inj member).symm

/-- Edits of all nodes reach the entry of each node, and no other entry. -/
theorem metrics_foldl_nodeList (edit : Node → Option (Metrics → Metrics)) (graph : Graph)
    (id : String)
    : (graph.nodeList.foldl (amendEntry edit) graph).metrics[id]?
      = Metrics.amend ((graph.node? id).bind edit) graph.metrics[id]? := by
  have distinct : (graph.nodeList.map Node.id).Nodup :=
    (List.pairwise_map.mpr graph.nodeList_ordered).imp (fun before => before.ne)
  have present (node : Node) (member : node ∈ graph.nodeList)
      : graph.contains node.id = true :=
    contains_iff.mpr ⟨node, mem_nodeList_iff.mp member⟩
  rw [metrics_foldl_amendEntry distinct present, find?_nodeList]

end Graph

-----------------------------------------------------------------------------------------
-- Measures
-----------------------------------------------------------------------------------------

/-- What is recorded in the metrics of a graph after it is assembled. -/
inductive Measure where
  | coverage
  | hashes (length : Nat)
  | changes (summary : ChangeSummary)

namespace Measure

/-- The parts of an entry. -/
inductive Part where
  | coverage
  | hash
  | changes
deriving DecidableEq

/-- The part of an entry that a measure writes. -/
def part : Measure → Part
  | .coverage => .coverage
  | .hashes _ => .hash
  | .changes _ => .changes

/-- The edit that a measure makes in the entry of a node. -/
def edit (graph : Graph) (node : Node) : Measure → Option (Metrics → Metrics)
  | .coverage =>
      if node.kind = .requirement then
        some (fun metrics =>
          { metrics with
            coverage := some (graph.requirementCoverage graph.cyclePositions node.id).fraction })
      else none
  | .hashes length =>
      if node.kind = .requirement then
        some (fun metrics =>
          { metrics with
            hash := some (BodyHash.verify ((node.text? FieldKey.body).getD "")
              (node.text? FieldKey.hash) length) })
      else none
  | .changes summary =>
      if (summary.flagsFor node.source.path).any then
        some (fun metrics => { metrics with changes := summary.flagsFor node.source.path })
      else none

/-- Edits that write different parts of an entry may change places. -/
theorem edit_comm {graph : Graph} {node : Node} {first second : Measure}
    (apart : first.part ≠ second.part) {f g : Metrics → Metrics}
    (here : first.edit graph node = some f) (there : second.edit graph node = some g)
    (metrics : Metrics)
    : f (g metrics) = g (f metrics) := by
  cases first <;> cases second <;> first
    | exact absurd rfl apart
    | simp only [edit, Option.ite_none_right_eq_some, Option.some.injEq] at here there
      obtain ⟨-, rfl⟩ := here
      obtain ⟨-, rfl⟩ := there
      rfl

end Measure

namespace Graph

/-- Records a measure. Coverage is computed from the graph as it is. -/
def annotate (graph : Graph) : Measure → Graph
  | .coverage => graph.recordCoverage graph.coverage
  | .hashes length => graph.recordHashes length
  | .changes summary => graph.recordChanges summary

theorem annotate_eq_foldl (graph : Graph) (measure : Measure)
    : graph.annotate measure
      = graph.nodeList.foldl (amendEntry (fun node => measure.edit graph node)) graph := by
  cases measure with
  | coverage =>
      rw [annotate, recordCoverage, coverage, List.foldl_map, requirements, nodesOfKind,
        List.foldl_filter]
      refine List.foldl_ext _ _ _ (fun current node _ => ?_)
      simp only [amendEntry, Measure.edit, decide_eq_true_eq]
      split <;> rfl
  | hashes length =>
      rw [annotate, recordHashes, requirements, nodesOfKind, List.foldl_filter]
      refine List.foldl_ext _ _ _ (fun current node _ => ?_)
      simp only [amendEntry, Measure.edit, decide_eq_true_eq]
      split <;> rfl
  | changes summary =>
      rw [annotate, recordChanges]
      refine List.foldl_ext _ _ _ (fun current node _ => ?_)
      simp only [amendEntry, Measure.edit]
      split <;> rfl

/-- The two graphs agree in everything but the metrics. -/
structure SameButMetrics (graph other : Graph) : Prop where
  nodes : other.nodes = graph.nodes
  edges : other.edges = graph.edges
  roots : other.roots = graph.roots
  duplicates : other.duplicates = graph.duplicates
  files : other.files = graph.files

theorem annotate_eq (graph : Graph) (measure : Measure)
    : ∃ metrics, graph.annotate measure = { graph with metrics } := by
  cases measure with
  | coverage => exact graph.recordCoverage_eq _
  | hashes length => exact graph.recordHashes_eq length
  | changes summary => exact graph.recordChanges_eq summary

theorem foldl_annotate_eq (graph : Graph) (measures : List Measure)
    : ∃ metrics, measures.foldl annotate graph = { graph with metrics } :=
  foldl_metrics_eq annotate annotate_eq measures graph

/-- A measure edits the entry of each node, and no other entry. -/
theorem metrics_annotate (graph : Graph) (measure : Measure) (id : String)
    : (graph.annotate measure).metrics[id]?
      = Metrics.amend ((graph.node? id).bind (fun node => measure.edit graph node))
          graph.metrics[id]? := by
  rw [annotate_eq_foldl, metrics_foldl_nodeList]

/-- Graphs that differ from one graph in metrics only are equal if their metrics are. -/
theorem eq_of_metrics_eq {graph left right : Graph}
    (leftOnly : ∃ metrics, left = { graph with metrics })
    (rightOnly : ∃ metrics, right = { graph with metrics })
    (same : ∀ id : String, left.metrics[id]? = right.metrics[id]?)
    : left = right := by
  obtain ⟨metrics, rfl⟩ := leftOnly
  obtain ⟨others, rfl⟩ := rightOnly
  obtain rfl : metrics = others := Std.ExtTreeMap.ext_getElem? same
  rfl

/-- The entry of each node is edited by one measure after another, as an edit does not depend on
the metrics that are there. -/
theorem metrics_foldl_annotate (graph : Graph) (measures : List Measure) (id : String)
    : (measures.foldl annotate graph).metrics[id]?
      = measures.foldl
          (fun entry measure =>
            Metrics.amend ((graph.node? id).bind (fun node => measure.edit graph node)) entry)
          graph.metrics[id]? := by
  induction measures generalizing graph with
  | nil => rfl
  | cons first rest ih =>
      rw [List.foldl_cons, List.foldl_cons, ih, metrics_annotate]
      obtain ⟨metrics, only⟩ := graph.annotate_eq first
      rw [only]
      refine List.foldl_ext _ _ _ (fun entry measure _ => ?_)
      cases measure <;> rfl

/-- Two measures that write different parts of the entries may change places. -/
theorem annotate_comm (graph : Graph) {first second : Measure}
    (apart : first.part ≠ second.part)
    : (graph.annotate first).annotate second = (graph.annotate second).annotate first := by
  refine eq_of_metrics_eq (graph.foldl_annotate_eq [first, second])
    (graph.foldl_annotate_eq [second, first]) (fun id => ?_)
  have left := graph.metrics_foldl_annotate [first, second] id
  have right := graph.metrics_foldl_annotate [second, first] id
  refine left.trans (Eq.trans ?_ right.symm)
  refine Metrics.amend_comm (fun f edits g others metrics => ?_) _
  obtain ⟨node, found, here⟩ := Option.bind_eq_some_iff.mp edits
  obtain ⟨other, again, there⟩ := Option.bind_eq_some_iff.mp others
  obtain rfl : node = other := Option.some.inj (found.symm.trans again)
  exact Measure.edit_comm apart.symm here there metrics

/-- Measures that all write different parts of the entries may be recorded in any order. -/
theorem foldl_annotate_eq_of_perm (graph : Graph) {order other : List Measure}
    (apart : (order.map Measure.part).Nodup) (same : order.Perm other)
    : order.foldl annotate graph = other.foldl annotate graph := by
  refine same.foldl_eq' (fun first memberFirst second memberSecond current => ?_) graph
  by_cases parts : first.part = second.part
  · rw [List.inj_on_of_nodup_map apart memberFirst memberSecond parts]
  · exact current.annotate_comm parts

-----------------------------------------------------------------------------------------
-- All three measures
-----------------------------------------------------------------------------------------

/-- Coverage, hash status and changes may be recorded in any order: the graph is the same at the
end, and on the way nothing but metrics changes, nor does the coverage that is computed. At the end
the metrics of each requirement hold the coverage of its entry in the report and how its stored hash
compares with its body. -/
theorem measures_in_any_order (graph : Graph) (length : Nat) (summary : ChangeSummary)
    {order : List Measure} (all : order.Perm [.coverage, .hashes length, .changes summary])
    : let after := order.foldl annotate graph
      after = [.coverage, .hashes length, .changes summary].foldl annotate graph
      ∧ (∀ done, done <+: order →
          graph.SameButMetrics (done.foldl annotate graph)
          ∧ (done.foldl annotate graph).coverage = graph.coverage)
      ∧ ∀ node ∈ graph.requirements, ∃ entry metrics,
          graph.coverage.find? node.id = some entry
          ∧ after.metrics[node.id]? = some metrics
          ∧ metrics.coverage = some entry.fraction
          ∧ metrics.hash
            = some (BodyHash.verify ((node.text? FieldKey.body).getD "")
                (node.text? FieldKey.hash) length) := by
  intro after
  have apart : (order.map Measure.part).Nodup := by
    rw [(all.map Measure.part).nodup_iff]
    exact show [Measure.Part.coverage, .hash, .changes].Nodup by decide
  have same := graph.foldl_annotate_eq_of_perm apart all
  refine ⟨same, fun done _ => ?_, fun node member => ?_⟩
  · obtain ⟨metrics, only⟩ := graph.foldl_annotate_eq done
    rw [only]
    exact ⟨⟨rfl, rfl, rfl, rfl, rfl⟩, rfl⟩
  · obtain ⟨found, kind⟩ := mem_nodesOfKind_iff.mp member
    have reported := find?_coverage (isRequirement_iff.mpr ⟨node, found, kind⟩)
    have recorded :=
      graph.metrics_foldl_annotate [.coverage, .hashes length, .changes summary] node.id
    simp only [← same, found, List.foldl_cons, List.foldl_nil, Option.bind_some, Measure.edit,
      if_pos kind] at recorded
    split at recorded
    all_goals exact ⟨_, _, reported, recorded, rfl, rfl⟩

/-- A requirement with two letters, one of which code implements. -/
def halfImplemented : SourceSet where
  files := [
    ⟨"login.md", "# REQ-p00001: Login\nA. Ask.\nB. Tell.\n*End* *Login*\n"⟩,
    ⟨"login.rs", "// Implements: REQ-p00001-A\n"⟩]

theorem measures_in_any_order_halfImplemented
    : let graph := Graph.ofSources Config.defaultScheme halfImplemented
      let summary : ChangeSummary := { modified := {"login.md"} }
      let order : List Measure := [.changes summary, .coverage, .hashes 8]
      order.Perm [.coverage, .hashes 8, .changes summary]
      ∧ order.foldl annotate graph
        = [.coverage, .hashes 8, .changes summary].foldl annotate graph
      ∧ ∃ entry metrics,
          graph.coverage.find? "REQ-p00001" = some entry
          ∧ (order.foldl annotate graph).metrics["REQ-p00001"]? = some metrics
          ∧ metrics.coverage = some entry.fraction
          ∧ metrics.hash = some .missing := by
  intro graph summary order
  have all : order.Perm [.coverage, .hashes 8, .changes summary] :=
    (List.Perm.swap _ _ _).trans ((List.Perm.swap _ _ _).cons _)
  have evaluated
      : ∃ node ∈ graph.requirements,
          node.id = "REQ-p00001" ∧ node.text? FieldKey.hash = none := by
    decide +kernel
  obtain ⟨node, member, own, unhashed⟩ := evaluated
  obtain ⟨same, -, recorded⟩ := measures_in_any_order graph 8 summary all
  obtain ⟨entry, metrics, reported, found, coverage, hash⟩ := recorded node member
  rw [unhashed] at hash
  exact ⟨all, same, entry, metrics, own ▸ reported, own ▸ found, coverage, hash⟩

end Graph

/-- A run that is given changes records all three measures. -/
theorem Run.graph_ofSources (scheme : Scheme) (rules : List Rule) (sources : SourceSet)
    (summary : ChangeSummary)
    : (Run.ofSources scheme rules sources (some summary)).graph
      = [.coverage, .hashes scheme.hashLength, .changes summary].foldl Graph.annotate
          (Graph.ofSources scheme sources) :=
  rfl

end Traceability
