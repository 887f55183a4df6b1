import Traceability.Proofs.Coverage.Rearranged
import Traceability.Proofs.Distinct
import Traceability.Proofs.Sorting
import Traceability.Rule.Report

/-! Findings do not depend on the order of files.
Each rule goes through nodes in the order of their identifiers and reads entries, the edges that
leave a node, and which edges arrive. Broken references are sorted before they are looked at, by
an order that tells any two of them apart.
-/

namespace Traceability

-----------------------------------------------------------------------------------------
-- Broken references
-----------------------------------------------------------------------------------------

namespace WrittenReference

instance : Std.TransCmp order :=
  inferInstanceAs (Std.TransCmp (compareLex _ (compareLex _ (compareLex _ _))))

theorem rank_injective : Function.Injective EdgeKind.rank := by
  intro a b same
  cases a <;> cases b <;> first | rfl | exact absurd same (by decide)

instance : Std.LawfulEqCmp order where
  eq_of_compare := by
    intro a b same
    obtain ⟨source, line, kind, target⟩ := a
    simp only [order, compareLex_eq_eq, compareOn, Std.LawfulEqCmp.compare_eq_iff_eq] at same
    obtain ⟨rfl, rfl, ranks, rfl⟩ := same
    rw [rank_injective ranks]

end WrittenReference

namespace Graph

variable {graph other : Graph}

theorem SameEntries.missingLetters_eq (same : graph.SameEntries other) (edge : Edge)
    : other.missingLetters edge = graph.missingLetters edge := by
  have read (any : Graph)
      : any.missingLetters edge
        = ((any.node? edge.target).map (fun target =>
            edge.letters.filter (fun letter =>
              !(target.list FieldKey.assertions).contains letter))).getD [] := by
    rw [missingLetters]
    cases any.node? edge.target <;> rfl
  rw [read, read, same.map_node?_eq (fun _ => rfl)]

theorem SameEntries.isBroken_eq (same : graph.SameEntries other) (edge : Edge)
    : other.isBroken edge = graph.isBroken edge := by
  have resolved : other.isResolved edge = graph.isResolved edge :=
    Bool.eq_iff_iff.mpr same.contains_iff
  rw [isBroken, isBroken, resolved, same.missingLetters_eq]

namespace Rearranged

/-- The broken references are the same, with the same letters. Witness: all edges of a reference
leave one node. -/
theorem brokenReferences_eq (rearranged : graph.Rearranged other)
    : other.brokenReferences = graph.brokenReferences := by
  have broken : other.isBroken = graph.isBroken := funext rearranged.entries.isBroken_eq
  have missing : other.missingLetters = graph.missingLetters :=
    funext rearranged.entries.missingLetters_eq
  have references
      : ((other.edges.toList.filter graph.isBroken).map WrittenReference.ofEdge).mergeSort
          (fun a b => (WrittenReference.order a b).isLE)
        = ((graph.edges.toList.filter graph.isBroken).map WrittenReference.ofEdge).mergeSort
          (fun a b => (WrittenReference.order a b).isLE) :=
    mergeSort_eq_of_perm ((rearranged.edges.filter _).map _)
  -- Edges that leave other nodes may stand in between, but they belong to other references.
  have own (reference : WrittenReference) (edges : List Edge)
      : (edges.filter graph.isBroken).filter (fun edge => WrittenReference.ofEdge edge = reference)
        = ((Traceability.leaving reference.source edges).filter graph.isBroken).filter
            (fun edge => WrittenReference.ofEdge edge = reference) := by
    simp only [Traceability.leaving, List.filter_filter]
    refine List.filter_congr (fun edge _ => ?_)
    by_cases here : WrittenReference.ofEdge edge = reference
    · subst here
      simp [WrittenReference.ofEdge]
    · simp [here]
  simp only [brokenReferences, broken, missing, references]
  refine List.map_congr_left (fun reference _ => ?_)
  rw [own, own reference graph.edges.toList, rearranged.leaving]

/-- The edges that arrive at a node are tested alike. -/
theorem any_incoming_eq (rearranged : graph.Rearranged other) (attached : graph.Attached)
    (attachedOther : other.Attached) (id : String) (test : Edge → Bool)
    : (other.incoming id).any test = (graph.incoming id).any test := by
  rw [Bool.eq_iff_iff, List.any_eq_true, List.any_eq_true]
  simp only [rearranged.mem_incoming_iff attached attachedOther]

end Rearranged

theorem SameEntries.idAndAssertions_eq (same : graph.SameEntries other) (id : String)
    : other.idAndAssertions id = graph.idAndAssertions id := by
  have read (any : Graph)
      : any.idAndAssertions id
        = id :: ((any.node? id).map (fun node =>
            (node.list FieldKey.assertions).filterMap (fun letter =>
              (any.node? (assertionId id letter)).map Node.id))).getD [] := by
    rw [idAndAssertions, assertionsOf]
    cases any.node? id with
    | none => rfl
    | some node => rw [List.map_filterMap, Option.map_some, Option.getD_some]
  have ids (letter : String)
      : (other.node? (assertionId id letter)).map Node.id
        = (graph.node? (assertionId id letter)).map Node.id :=
    same.map_node?_eq (fun _ => rfl) _
  rw [read, read, same.map_node?_eq (fun _ => rfl)]
  simp only [ids]

end Graph

-----------------------------------------------------------------------------------------
-- The rules
-----------------------------------------------------------------------------------------

namespace Rule

variable {graph other : Graph}

/-- Two graphs give a rule the same findings, whatever the scheme and the coverage are. -/
def Agrees (rule : Rule) (graph other : Graph) : Prop :=
  ∀ scheme coverage,
    rule.check { graph := other, scheme, coverage } = rule.check { graph, scheme, coverage }

theorem agrees_duplicateId (rearranged : graph.Rearranged other)
    : duplicateId.Agrees graph other := by
  intro scheme coverage
  simp only [duplicateId, rearranged.duplicates]

theorem agrees_brokenReference (rearranged : graph.Rearranged other)
    : brokenReference.Agrees graph other := by
  intro scheme coverage
  have finding (reference : WrittenReference) (letters : List String)
      : BrokenReference.finding? other reference letters
        = BrokenReference.finding? graph reference letters :=
    rearranged.entries.map_node?_eq (fun _ => rfl) _
  simp only [brokenReference, BrokenReference.check, rearranged.brokenReferences_eq, finding,
    rearranged.files]

/-- Findings about selected nodes, where the positions of edges have no say in the selection. -/
theorem map_filter_nodesOfKind_eq (same : graph.SameEntries other) (kind : NodeKind)
    {test : Node → Bool} {make : Node → Finding} (bareTest : ∀ node, test node.bare = test node)
    (bareMake : ∀ node, make node.bare = make node)
    : ((other.nodesOfKind kind).filter test).map make
      = ((graph.nodesOfKind kind).filter test).map make := by
  have read (nodes : List Node)
      : (nodes.filter test).map make = nodes.flatMap (fun node =>
          if test node then [make node] else []) := by
    rw [← List.filterMap_eq_map', List.filterMap_filter, List.filterMap_eq_flatMap_toList]
    refine List.flatMap_congr (fun node _ => ?_)
    split <;> rfl
  rw [read, read]
  have bare (node : Node)
      : (if test node.bare then [make node.bare] else [])
        = if test node then [make node] else [] := by
    rw [bareTest, bareMake]
  exact same.flatMap_nodesOfKind_eq kind bare bare (fun _ _ => rfl)

theorem agrees_orphan (rearranged : graph.Rearranged other) (attached : graph.Attached)
    (attachedOther : other.Attached)
    : orphan.Agrees graph other := by
  intro scheme coverage
  have roots (id : String) : other.roots.contains id = graph.roots.contains id :=
    rearranged.roots.contains_eq
  have resolved (edge : Edge) : other.isResolved edge = graph.isResolved edge :=
    Bool.eq_iff_iff.mpr rearranged.entries.contains_iff
  have cutOff : Orphan.isCutOff other = Orphan.isCutOff graph := by
    funext node
    simp only [Orphan.isCutOff, roots, resolved, rearranged.outgoing_eq attached attachedOther,
      rearranged.entries.idAndAssertions_eq, rearranged.any_incoming_eq attached attachedOther]
  have unaddressed : Orphan.isUnaddressed other = Orphan.isUnaddressed graph := by
    funext node
    simp only [Orphan.isUnaddressed, rearranged.any_incoming_eq attached attachedOther]
  simp only [orphan, cutOff, unaddressed]
  exact congrArg₂ (· ++ ·)
    (map_filter_nodesOfKind_eq rearranged.entries .requirement (fun _ => rfl) (fun _ => rfl))
    (map_filter_nodesOfKind_eq rearranged.entries .journey (fun _ => rfl) (fun _ => rfl))

/-- The parents are the same in the same order, apart from the positions of their edges. -/
theorem map_bare_parents_eq (rearranged : graph.Rearranged other) (attached : graph.Attached)
    (attachedOther : other.Attached) (node : Node)
    : (Hierarchy.parents other node).map (Prod.map id Node.bare)
      = (Hierarchy.parents graph node).map (Prod.map id Node.bare) := by
  let same (a b : EdgeKind × Node) : Bool := a.2.id == b.2.id
  have agree (a b : EdgeKind × Node)
      : same (Prod.map id Node.bare a) (Prod.map id Node.bare b) = same a b :=
    rfl
  have owned (edge : Edge)
      : ((other.owner? edge.target).map (fun owner => (edge.kind, owner))).map
          (Prod.map id Node.bare)
        = ((graph.owner? edge.target).map (fun owner => (edge.kind, owner))).map
            (Prod.map id Node.bare) := by
    have entries := rearranged.entries.bare_owner?_eq edge.target
    have paired := congrArg (Option.map (fun entry => (edge.kind, entry))) entries
    rw [Option.map_map, Option.map_map] at paired ⊢
    exact paired
  simp only [Hierarchy.parents, rearranged.outgoing_eq attached attachedOther]
  rw [map_eraseDupsBy agree, map_eraseDupsBy agree, List.map_filterMap, List.map_filterMap]
  simp only [owned]

theorem agrees_hierarchy (rearranged : graph.Rearranged other) (attached : graph.Attached)
    (attachedOther : other.Attached)
    : hierarchy.Agrees graph other := by
  intro scheme coverage
  refine rearranged.entries.flatMap_nodesOfKind_eq .requirement (fun _ => rfl) (fun _ => rfl) ?_
  intro entry _
  -- The lists of parents differ in the positions of edges, which no finding reads.
  have apart (level : Level) (parents : List (EdgeKind × Node))
      : parents.filterMap (fun parent =>
          Hierarchy.finding? scheme entry level parent.1 parent.2)
        = (parents.map (Prod.map id Node.bare)).filterMap (fun parent =>
            Hierarchy.finding? scheme entry level parent.1 parent.2) := by
    rw [List.filterMap_map]
    rfl
  dsimp only
  cases scheme.levelOf? entry with
  | none => rfl
  | some level =>
      refine (apart level _).trans (Eq.trans ?_ (apart level _).symm)
      rw [map_bare_parents_eq rearranged attached attachedOther]

theorem agrees_cycle (rearranged : graph.Rearranged other) : cycle.Agrees graph other := by
  intro scheme coverage
  refine List.filterMap_congr (fun members _ => ?_)
  have sources
      : (members.tail.filterMap other.node?).map Node.source
        = (members.tail.filterMap graph.node?).map Node.source := by
    rw [List.map_filterMap, List.map_filterMap]
    exact List.filterMap_congr (fun id _ => rearranged.entries.map_node?_eq (fun _ => rfl) id)
  have first (id : String) (make : Node → Finding) (bare : ∀ node, make node.bare = make node)
      : (other.node? id).bind (fun node => some (make node))
        = (graph.node? id).bind (fun node => some (make node)) := by
    have made := rearranged.entries.map_node?_eq bare id
    rwa [Option.map_eq_bind, Option.map_eq_bind] at made
  cases members.head? with
  | none => rfl
  | some id =>
      simp only [sources]
      exact first id _ (fun _ => rfl)

theorem agrees_assertionSequence (rearranged : graph.Rearranged other)
    : assertionSequence.Agrees graph other := by
  intro scheme coverage
  simp only [assertionSequence, List.filterMap_eq_flatMap_toList]
  exact rearranged.entries.flatMap_nodesOfKind_eq .requirement (fun _ => rfl) (fun _ => rfl)
    (fun _ _ => rfl)

theorem agrees_metadata (rearranged : graph.Rearranged other)
    : metadata.Agrees graph other := by
  intro scheme coverage
  exact rearranged.entries.flatMap_nodesOfKind_eq .requirement (fun _ => rfl) (fun _ => rfl)
    (fun _ _ => rfl)

theorem agrees_storedHash (rearranged : graph.Rearranged other)
    : storedHash.Agrees graph other := by
  intro scheme coverage
  simp only [storedHash, List.filterMap_eq_flatMap_toList]
  exact rearranged.entries.flatMap_nodesOfKind_eq .requirement (fun _ => rfl) (fun _ => rfl)
    (fun _ _ => rfl)

/-- No standard rule looks at the order of files. -/
theorem standard_agrees {rule : Rule} (member : rule ∈ standard)
    (rearranged : graph.Rearranged other) (attached : graph.Attached)
    (attachedOther : other.Attached)
    : rule.Agrees graph other := by
  simp only [standard, List.mem_cons, List.not_mem_nil, or_false] at member
  rcases member with rfl | rfl | rfl | rfl | rfl | rfl | rfl | rfl
  · exact agrees_duplicateId rearranged
  · exact agrees_brokenReference rearranged
  · exact agrees_orphan rearranged attached attachedOther
  · exact agrees_hierarchy rearranged attached attachedOther
  · exact agrees_cycle rearranged
  · exact agrees_assertionSequence rearranged
  · exact agrees_metadata rearranged
  · exact agrees_storedHash rearranged

end Rule

end Traceability
