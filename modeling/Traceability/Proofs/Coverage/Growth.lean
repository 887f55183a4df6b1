import Traceability.Proofs.Coverage.Evidence
import Traceability.Proofs.Coverage.Rearranged
import Traceability.Proofs.Graph.History

/-! Coverage as edges are added.
A new edge is recorded behind the others, so the evidence for its target grows by one edge if it is
evidence, and stays as it is otherwise. The cycles stay unless the edge implements and leaves a
requirement.
-/

namespace Traceability

namespace Graph

variable {graph : Graph} {edge : Edge}

theorem sameEntries_addEdge (graph : Graph) (edge : Edge)
    : graph.SameEntries (graph.addEdge edge) :=
  graph.bare?_addEdge edge

/-- Only an edge by which a requirement implements leads anywhere. -/
theorem cycles_addEdge
    (apart : edge.kind ≠ .implements ∨ graph.isRequirement edge.source = false)
    : (graph.addEdge edge).cycles = graph.cycles := by
  have same := graph.sameEntries_addEdge edge
  refine cycles_congr (fun source target => ?_)
  simp only [Leads, same.isRequirement_iff, same.names_iff]
  refine and_congr_right (fun requirement => and_congr_right (fun _ => ?_))
  constructor
  · rintro ⟨other, member, kind, leaves, arrives⟩
    rcases mem_edges_addEdge member with old | rfl
    · exact ⟨other, old, kind, leaves, arrives⟩
    · rcases apart with differs | plain
      · exact absurd kind differs
      · rw [leaves, requirement] at plain
        exact absurd plain Bool.noConfusion
  · rintro ⟨other, member, rest⟩
    exact ⟨other, mem_edges_addEdge_of_mem member, rest⟩

-----------------------------------------------------------------------------------------
-- The evidence of a new edge
-----------------------------------------------------------------------------------------

/-- Nodes record positions of edges that are there. -/
def Bounded (graph : Graph) : Prop :=
  ∀ id node, graph.node? id = some node → ∀ position ∈ node.incoming, position < graph.edges.size

/-- A new edge arrives at its target behind the others. -/
theorem incoming_addEdge (bounded : graph.Bounded)
    (new : (graph.position? edge).isSome = false) (id : String)
    : (graph.addEdge edge).incoming id
      = graph.incoming id
        ++ if graph.contains id = true ∧ id = edge.target then [edge] else [] := by
  rw [incoming, incoming, node?_addEdge new]
  cases found : graph.node? id with
  | none =>
      rw [if_neg (fun arrives => ?_), List.append_nil]
      · rfl
      · obtain ⟨node, there⟩ := contains_iff.mp arrives.1
        rw [found] at there
        cases there
  | some node =>
      have present : graph.contains id = true := contains_iff.mpr ⟨node, found⟩
      have old : (graph.addEdge edge).edgesAt node.incoming = graph.edgesAt node.incoming := by
        refine List.filterMap_congr (fun position recorded => ?_)
        have before := bounded id node found position (Array.mem_toList_iff.mp recorded)
        rw [edges_addEdge new, Array.getElem?_push, if_neg (Nat.ne_of_lt before)]
      have last : (graph.addEdge edge).edges[graph.edges.size]? = some edge := by
        rw [edges_addEdge new, Array.getElem?_push_size]
      simp only [Option.map_some, Node.attach, id_of_node? found, present, true_and]
      split
      · rw [← old, edgesAt, edgesAt, Array.toList_push, List.filterMap_append]
        simp only [List.filterMap_cons, last, List.filterMap_nil]
      · rw [old, List.append_nil]

/-- The evidence for a node stays and may grow, and it grows by evidence only. -/
theorem evidenceAt_addEdge (bounded : graph.Bounded)
    (cycles : (graph.addEdge edge).cycles = graph.cycles) (id : String)
    : ∃ more,
        (graph.addEdge edge).evidenceAt id = graph.evidenceAt id ++ more
        ∧ (edge.kind.covers = false → more = []) := by
  have counts : (graph.addEdge edge).counts (graph.addEdge edge).cyclePositions
      = graph.counts graph.cyclePositions := by
    funext other
    rw [Bool.eq_iff_iff, counts_iff, counts_iff,
      (graph.sameEntries_addEdge edge).roles.evidence_iff cycles]
  cases new : (graph.position? edge).isSome with
  | true => exact ⟨[], by rw [addEdge_of_present new, List.append_nil], fun _ => rfl⟩
  | false =>
      let arriving := if graph.contains id = true ∧ id = edge.target then [edge] else []
      refine ⟨(arriving.filter (graph.counts graph.cyclePositions)).map Edge.letters, ?_,
        fun structural => ?_⟩
      · rw [evidenceAt, evidenceAt, counts, incoming_addEdge bounded new, List.filter_append,
          List.map_append]
      · have idle : ∀ other ∈ arriving, ¬ graph.counts graph.cyclePositions other = true := by
          intro other member
          obtain ⟨-, here⟩ := List.mem_ite_nil_right.mp member
          rw [List.mem_singleton.mp here, Graph.counts, structural, Bool.false_and]
          exact Bool.false_ne_true
        rw [List.filter_eq_nil_iff.mpr idle, List.map_nil]

/-- What is covered by evidence is covered by more. -/
theorem isMarkCovered_append {evidence more : String → List (List String)} {id : String}
    {mark : String × Option String} (covered : isMarkCovered evidence id mark = true)
    : isMarkCovered (fun id => evidence id ++ more id) id mark = true := by
  rw [isMarkCovered, Bool.or_eq_true, decide_eq_true_eq] at covered ⊢
  refine covered.imp (fun some none => some (List.append_eq_nil_iff.mp none).1) (fun named => ?_)
  rw [List.any_append, named, Bool.true_or]

end Graph

namespace Store

theorem bounded_after (operations : List Operation) : (after operations).graph.Bounded := by
  intro id node found position recorded
  have invariant := recorded_after operations
  obtain ⟨before, edge, first, -⟩ :=
    (invariant.positions .incoming id node found position).mp recorded
  exact invariant.lt_size first

/-- Further evidence takes away no coverage, and edges that are no evidence have no part in it. An
edge that validates, or that implements without leaving a requirement, leaves the cycles as they
are, and no requirement loses a letter or a part of its share. Any edge that neither validates nor
implements leaves the report as it is. -/
theorem coverage_addEdge_grows (operations : List Operation) (edge : Edge)
    : let store := after operations
      let before := store.graph.coverage
      let after := (store.addEdge edge).1.graph.coverage
      (edge.kind = .validates
          ∨ edge.kind = .implements ∧ store.graph.isRequirement edge.source = false →
        after.cycles = before.cycles
        ∧ List.Forall₂ RequirementCoverage.Grows before.requirements after.requirements)
      ∧ (edge.kind = .refines ∨ edge.kind = .addresses ∨ edge.kind = .contains →
        after = before) := by
  intro store before after
  have bounded : store.graph.Bounded := bounded_after operations
  have same := (store.graph.sameEntries_addEdge edge).roles
  simp only [after, store.graph_addEdge]
  constructor
  · intro further
    have cycles : (store.graph.addEdge edge).cycles = store.graph.cycles := by
      refine Graph.cycles_addEdge (further.imp ?_ And.right)
      intro kind
      rw [kind]
      exact EdgeKind.noConfusion
    refine ⟨cycles, same.forall₂_grows (fun id _ => ?_)⟩
    choose more evidence _ using fun id => Graph.evidenceAt_addEdge bounded cycles id
    rw [funext evidence]
    refine Graph.coverageBy_grows (fun mark _ _ => Graph.isMarkCovered_append)
      (fun _ some none => ?_)
    exact some (List.append_eq_nil_iff.mp none).1
  · intro structural
    have idle : edge.kind.covers = false ∧ edge.kind ≠ .implements := by
      rcases structural with kind | kind | kind <;> rw [kind] <;> exact ⟨rfl, EdgeKind.noConfusion⟩
    have cycles : (store.graph.addEdge edge).cycles = store.graph.cycles :=
      Graph.cycles_addEdge (Or.inl idle.2)
    refine same.coverage_eq cycles (fun id _ => ?_)
    have evidence : (store.graph.addEdge edge).evidenceAt = store.graph.evidenceAt := by
      funext id
      obtain ⟨more, grown, none⟩ := Graph.evidenceAt_addEdge bounded cycles id
      rw [grown, none idle.1, List.append_nil]
    rw [evidence]

/-- A requirement that implements itself, with one assertion. -/
def uncoveredLetter : List Operation :=
  let login : Node :=
    { id := "REQ-p00001"
      kind := .requirement
      label := "Login"
      source := ⟨"login.md", 1, 3⟩
      fields := (∅ : Fields).insert FieldKey.assertions (.list ["A"]) }
  let name : Node :=
    { id := "REQ-p00001-A"
      kind := .assertion
      label := "Ask for a name."
      source := ⟨"login.md", 2, 2⟩
      fields :=
        ((∅ : Fields).insert FieldKey.requirement (.text "REQ-p00001")).insert FieldKey.label
          (.text "A") }
  [.addEdge ⟨"REQ-p00001", "REQ-p00001", .implements, [], 1⟩, .addNode login ⟨rfl, rfl⟩,
    .addNode name ⟨rfl, rfl⟩, .addEdge ⟨"REQ-p00001", "REQ-p00001-A", .implements, [], 1⟩]

/-- Code that implements the assertion adds evidence, and that it refines the assertion is nothing
to coverage. -/
theorem coverage_addEdge_grows_uncoveredLetter
    : let store := after uncoveredLetter
      let before := store.graph.coverage
      let coded (kind : EdgeKind) : Edge := ⟨"code:login.rs:1", "REQ-p00001-A", kind, [], 1⟩
      let implemented := (store.addEdge (coded .implements)).1.graph.coverage
      store.graph.requirements.map Node.id = ["REQ-p00001"]
      ∧ store.graph.isRequirement "code:login.rs:1" = false
      ∧ implemented.cycles = before.cycles
      ∧ List.Forall₂ RequirementCoverage.Grows before.requirements implemented.requirements
      ∧ (store.addEdge (coded .refines)).1.graph.coverage = before := by
  intro store before coded implemented
  have made : store.graph = uncoveredLetter.foldl Operation.perform {} :=
    graph_after uncoveredLetter
  have evaluated
      : store.graph.requirements.map Node.id = ["REQ-p00001"]
        ∧ store.graph.isRequirement "code:login.rs:1" = false := by
    rw [made]
    decide +kernel
  obtain ⟨requirements, code⟩ := evaluated
  obtain ⟨cycles, grows⟩ :=
    (coverage_addEdge_grows uncoveredLetter (coded .implements)).1 (Or.inr ⟨rfl, code⟩)
  have stays := (coverage_addEdge_grows uncoveredLetter (coded .refines)).2 (Or.inl rfl)
  exact ⟨requirements, code, cycles, grows, stays⟩

end Store

end Traceability
