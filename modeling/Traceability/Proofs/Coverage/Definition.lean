import Traceability.Coverage.Basic
import Traceability.Proofs.Coverage.Components
import Traceability.Proofs.Graph.Comparison

/-! What coverage counts.
The report is computed from the edges that nodes record. Its meaning is stated over the whole
list of edges: a letter is covered if some edge is evidence and points at its assertion, or at
the requirement while naming the letter.
-/

namespace Traceability

-----------------------------------------------------------------------------------------
-- Evidence
-----------------------------------------------------------------------------------------

namespace Graph

/-- A target belongs to a requirement: it is the requirement, or an assertion that names it. -/
def Belongs (graph : Graph) (target owner : String) : Prop :=
  target = owner
  ∨ ∃ node ∈ graph.node? target,
      node.kind = .assertion ∧ node.text? FieldKey.requirement = some owner

theorem SameRoles.belongs_iff {graph other : Graph} (same : graph.SameRoles other)
    {target owner : String}
    : other.Belongs target owner ↔ graph.Belongs target owner :=
  or_congr_right same.names_iff

theorem SameEntries.belongs_iff {graph other : Graph} (same : graph.SameEntries other)
    {target owner : String}
    : other.Belongs target owner ↔ graph.Belongs target owner :=
  same.roles.belongs_iff

/-- An edge implements along a cycle: its source is on one cycle with the requirement to which
its target belongs. -/
def AlongCycle (graph : Graph) (edge : Edge) : Prop :=
  edge.kind = .implements
  ∧ ∃ owner ∈ graph.requirements.map Node.id, graph.Belongs edge.target owner
    ∧ ∃ cycle ∈ graph.cycles, edge.source ∈ cycle ∧ owner ∈ cycle

/-- An edge is evidence for what it targets: it implements or validates it, but not along a
cycle. -/
def Evidence (graph : Graph) (edge : Edge) : Prop :=
  (edge.kind = .implements ∨ edge.kind = .validates) ∧ ¬ graph.AlongCycle edge

/-- What is evidence is a matter of the roles of nodes and of the cycles. -/
theorem SameRoles.evidence_iff {graph other : Graph} (same : graph.SameRoles other)
    (cycles : other.cycles = graph.cycles) {edge : Edge}
    : other.Evidence edge ↔ graph.Evidence edge := by
  simp only [Evidence, AlongCycle, same.requirementIds_eq, same.belongs_iff, cycles]

/-- An edge points at the assertion with this letter, or at the requirement while naming the
letter. -/
def PointsAt (id letter : String) (edge : Edge) : Prop :=
  edge.target = assertionId id letter ∨ edge.target = id ∧ letter ∈ edge.letters

/-- Some edge is evidence for a letter. -/
def CoversLetter (graph : Graph) (id letter : String) : Prop :=
  ∃ edge ∈ graph.edges, graph.Evidence edge ∧ PointsAt id letter edge

/-- Some edge is evidence for a requirement itself, whether or not it names letters. -/
def CoversWhole (graph : Graph) (id : String) : Prop :=
  ∃ edge ∈ graph.edges, graph.Evidence edge ∧ edge.target = id

instance (graph : Graph) (target owner : String)
    : Decidable (graph.Belongs target owner) :=
  inferInstanceAs (Decidable (_ ∨ _))

instance (graph : Graph) (edge : Edge) : Decidable (graph.AlongCycle edge) :=
  inferInstanceAs (Decidable (_ ∧ _))

instance (graph : Graph) (edge : Edge) : Decidable (graph.Evidence edge) :=
  inferInstanceAs (Decidable (_ ∧ _))

instance (id letter : String) (edge : Edge) : Decidable (PointsAt id letter edge) :=
  inferInstanceAs (Decidable (_ ∨ _))

instance (graph : Graph) (id letter : String) : Decidable (graph.CoversLetter id letter) :=
  inferInstanceAs (Decidable (∃ edge ∈ graph.edges, _))

instance (graph : Graph) (id : String) : Decidable (graph.CoversWhole id) :=
  inferInstanceAs (Decidable (∃ edge ∈ graph.edges, _))

/-- The coverage of a requirement by the edges of the graph. Its share is that of the letters
written, repeats included, and without letters all or nothing. -/
def declaredCoverage (graph : Graph) (node : Node) : RequirementCoverage :=
  let letters := node.list FieldKey.assertions
  let covered := letters.filter (fun letter => graph.CoversLetter node.id letter)
  { id := node.id
    letters
    covered
    fraction :=
      if letters = [] then (if graph.CoversWhole node.id then 1 else 0)
      else (covered.length : Rat) / (letters.length : Rat) }

/-- The positions of edges have no say. -/
theorem declaredCoverage_bare (graph : Graph) (node : Node)
    : graph.declaredCoverage node.bare = graph.declaredCoverage node :=
  rfl

-----------------------------------------------------------------------------------------
-- Graphs whose records are exact
-----------------------------------------------------------------------------------------

/-- A graph whose nodes record exactly their edges, and whose letters lead to assertions. -/
structure Faithful (scheme : Scheme) (graph : Graph) : Prop where
  assembled : graph.Assembled
  attached : graph.Attached
  lettered : graph.Lettered scheme

theorem faithful_ofSources (scheme : Scheme) (sources : SourceSet)
    : (Graph.ofSources scheme sources).Faithful scheme where
  assembled := (assembled_ofSources scheme sources).1
  attached := attached_assemble scheme _
  lettered := lettered_ofSources scheme sources

variable {scheme : Scheme} {graph : Graph}

/-- The owner of a target is the requirement to which it belongs. -/
theorem Assembled.exists_belongs_iff (assembled : graph.Assembled) {target : String}
    {P : String → Prop}
    : (∃ owner ∈ graph.requirements.map Node.id, graph.Belongs target owner ∧ P owner)
      ↔ ∃ owner, graph.owner? target = some owner ∧ P owner.id := by
  constructor
  · intro ⟨id, listed, belongs, holds⟩
    obtain ⟨owner, member, rfl⟩ := List.mem_map.mp listed
    exact ⟨owner, assembled.owner?_eq_some_iff.mpr ⟨member, belongs⟩, holds⟩
  · intro ⟨owner, owned, holds⟩
    obtain ⟨member, belongs⟩ := assembled.owner?_eq_some_iff.mp owned
    exact ⟨owner.id, List.mem_map_of_mem member, belongs, holds⟩

-----------------------------------------------------------------------------------------
-- Positions of cycles
-----------------------------------------------------------------------------------------

theorem mem_cycleMembers_iff {cycles : List (List String)} {id : String} {position : Nat}
    : (id, position) ∈ cycleMembers cycles
      ↔ ∃ cycle, cycles[position]? = some cycle ∧ id ∈ cycle := by
  simp only [cycleMembers, List.mem_flatMap, Prod.exists, List.mem_zipIdx_iff_getElem?,
    List.mem_map, Prod.mk.injEq]
  constructor
  · intro given
    obtain ⟨cycle, _, found, _, member, rfl, rfl⟩ := given
    exact ⟨cycle, found, member⟩
  · intro ⟨cycle, found, member⟩
    exact ⟨cycle, position, found, id, member, rfl, rfl⟩

theorem map_fst_cycleMembers (cycles : List (List String))
    : (cycleMembers cycles).map Prod.fst = cycles.flatten := by
  simp only [cycleMembers, List.map_flatMap, List.map_map, Function.comp_def, List.map_id']
  rw [List.flatMap_def, List.zipIdx_map_fst]

/-- No requirement is listed twice, as no two cycles have a common member. -/
theorem nodup_flatten_cycles (graph : Graph) : graph.cycles.flatten.Nodup := by
  refine List.nodup_flatten.mpr ⟨fun cycle listed => ?_, graph.cycles_disjoint⟩
  exact (mem_cycles_iff.mp listed).ordered.imp (fun before => before.ne)

/-- For each requirement on a cycle, the position of its cycle. -/
def cyclePositions (graph : Graph) : Std.ExtTreeMap String Nat :=
  cycleIndex graph.cycles

/-- A requirement has the position of the only cycle that it is on. -/
theorem getElem?_cyclePositions_iff {graph : Graph} {id : String} {position : Nat}
    : graph.cyclePositions[id]? = some position
      ↔ ∃ cycle, graph.cycles[position]? = some cycle ∧ id ∈ cycle := by
  have apart : (cycleMembers graph.cycles).Pairwise (fun a b => ¬ compare a.1 b.1 = .eq) := by
    have unique := graph.nodup_flatten_cycles
    rw [← map_fst_cycleMembers, List.Nodup, List.pairwise_map] at unique
    exact unique.imp (fun differ same => differ (Std.LawfulEqCmp.eq_of_compare same))
  have found {position : Nat} (member : (id, position) ∈ cycleMembers graph.cycles)
      : graph.cyclePositions[id]? = some position :=
    Std.ExtTreeMap.getElem?_ofList_of_mem Std.ReflCmp.compare_self apart member
  rw [← mem_cycleMembers_iff]
  constructor
  · intro given
    by_cases listed : id ∈ (cycleMembers graph.cycles).map Prod.fst
    · obtain ⟨⟨_, other⟩, member, rfl⟩ := List.mem_map.mp listed
      rw [found member] at given
      exact Option.some.inj given ▸ member
    · have none : graph.cyclePositions[id]? = none :=
        Std.ExtTreeMap.getElem?_ofList_of_contains_eq_false
          (by rwa [← Bool.not_eq_true, List.contains_iff_mem])
      rw [none] at given
      cases given
  · exact found

/-- Two requirements have one position exactly if they are on one cycle. -/
theorem exists_position_iff {graph : Graph} {a b : String}
    : (∃ position,
        graph.cyclePositions[a]? = some position ∧ graph.cyclePositions[b]? = some position)
      ↔ ∃ cycle ∈ graph.cycles, a ∈ cycle ∧ b ∈ cycle := by
  simp only [getElem?_cyclePositions_iff]
  constructor
  · intro ⟨position, ⟨cycle, found, here⟩, ⟨other, again, there⟩⟩
    obtain rfl := Option.some.inj (found.symm.trans again)
    exact ⟨cycle, List.mem_of_getElem? found, here, there⟩
  · intro ⟨cycle, listed, here, there⟩
    obtain ⟨position, found⟩ := List.mem_iff_getElem?.mp listed
    exact ⟨position, ⟨cycle, found, here⟩, ⟨cycle, found, there⟩⟩

/-- The test for edges along cycles is right in any graph, as only requirements are on cycles. -/
theorem isInCycle_iff {graph : Graph} {edge : Edge}
    : graph.isInCycle graph.cyclePositions edge = true ↔ graph.AlongCycle edge := by
  have same
      : graph.isInCycle graph.cyclePositions edge = true
        ↔ edge.kind = .implements
          ∧ ∃ owner, graph.owner? edge.target = some owner
            ∧ ∃ position,
                graph.cyclePositions[edge.source]? = some position
                ∧ graph.cyclePositions[owner.id]? = some position := by
    rw [isInCycle, Bool.and_eq_true, decide_eq_true_eq]
    refine and_congr_right (fun _ => ?_)
    cases graph.owner? edge.target with
    | none => simp
    | some owner =>
        simp only [Option.bind_some, Option.some.injEq, exists_eq_left']
        cases graph.cyclePositions[edge.source]? with
        | none => simp
        | some source =>
            cases graph.cyclePositions[owner.id]? with
            | none => simp
            | some target => simpa using eq_comm
  rw [same, AlongCycle]
  refine and_congr_right (fun _ => ?_)
  simp only [exists_position_iff]
  constructor
  · intro ⟨owner, owned, cycle, listed, here, there⟩
    have requirement := ((mem_cycles_iff.mp listed).onOneCycle there).isRequirement
    exact ⟨owner.id, mem_requirementIds_iff.mpr requirement,
      (owner?_id_iff requirement).mp ⟨owner, owned, rfl⟩, cycle, listed, here, there⟩
  · intro ⟨id, requirement, belongs, cycle, listed, both⟩
    obtain ⟨owner, owned, rfl⟩ :=
      (owner?_id_iff (mem_requirementIds_iff.mp requirement)).mpr belongs
    exact ⟨owner, owned, cycle, listed, both⟩

/-- What counts is the evidence. -/
theorem counts_iff {graph : Graph} {edge : Edge}
    : graph.counts graph.cyclePositions edge = true ↔ graph.Evidence edge := by
  have covers : edge.kind.covers = true ↔ edge.kind = .implements ∨ edge.kind = .validates := by
    cases edge.kind <;> simp [EdgeKind.covers]
  rw [counts, Bool.and_eq_true, Bool.not_eq_true', ← Bool.not_eq_true, isInCycle_iff, covers,
    Evidence]

/-- Each letter that a requirement lists has an assertion, which names both. -/
theorem Faithful.exists_assertion (faithful : graph.Faithful scheme) {node : Node}
    (member : node ∈ graph.requirements) {letter : String}
    (listed : letter ∈ node.list FieldKey.assertions)
    : ∃ assertion,
        graph.node? (assertionId node.id letter) = some assertion
        ∧ assertion.kind = .assertion
        ∧ assertion.text? FieldKey.requirement = some node.id
        ∧ assertion.text? FieldKey.label = some letter := by
  obtain ⟨found, kind⟩ := mem_nodesOfKind_iff.mp member
  have kept := bare?_of_node? found
  have isId := faithful.lettered.named node.id node.bare kept kind
  obtain ⟨c, upper, rfl⟩ := faithful.assembled.capital node.id node.bare kept kind letter listed
  obtain ⟨assertion, present⟩ := contains_iff.mp
    (faithful.lettered.listed node.id node.bare kept kind c.toString listed)
  exact ⟨assertion, present,
    faithful.lettered.separate node.id c isId upper assertion.bare (bare?_of_node? present)⟩

end Graph

/-- Items that are looked up, selected and labelled, where labels lead back to the items. -/
theorem filterMap_filter_filterMap {α β : Type} {items : List α} {look : α → Option β}
    {label : β → Option α} (back : ∀ a ∈ items, ∃ b, look a = some b ∧ label b = some a)
    (test : β → Bool)
    : ((items.filterMap look).filter test).filterMap label
      = items.filter (fun a => (look a).any test) := by
  induction items with
  | nil => rfl
  | cons a rest ih =>
      obtain ⟨b, found, own⟩ := back a List.mem_cons_self
      have later := ih (fun other member => back other (List.mem_cons_of_mem a member))
      rw [List.filterMap_cons_some found, List.filter_cons, List.filter_cons, found,
        Option.any_some]
      split
      · rw [List.filterMap_cons_some own, later]
      · exact later

namespace Graph

variable {scheme : Scheme} {graph : Graph}

/-- The coverage of one requirement is the declared one. -/
theorem Faithful.requirementCoverage_eq (faithful : graph.Faithful scheme) {node : Node}
    (member : node ∈ graph.requirements)
    : graph.requirementCoverage graph.cyclePositions node.id = graph.declaredCoverage node := by
  obtain ⟨found, -⟩ := mem_nodesOfKind_iff.mp member
  have present : graph.contains node.id = true := contains_iff.mpr ⟨node, found⟩
  let look (letter : String) : Option Node := graph.node? (assertionId node.id letter)
  have assertions
      : graph.assertionsOf node.id = (node.list FieldKey.assertions).filterMap look := by
    rw [assertionsOf, found]
  have back : ∀ letter ∈ node.list FieldKey.assertions, ∃ assertion,
      look letter = some assertion ∧ assertion.text? FieldKey.label = some letter := by
    intro letter listed
    obtain ⟨assertion, looked, -, -, label⟩ := faithful.exists_assertion member listed
    exact ⟨assertion, looked, label⟩
  have direct {edge : Edge}
      : edge ∈ (graph.incoming node.id).filter (graph.counts graph.cyclePositions)
        ↔ edge ∈ graph.edges ∧ graph.Evidence edge ∧ edge.target = node.id := by
    rw [List.mem_filter, faithful.attached.mem_incoming_iff present, counts_iff]
    tauto
  have letters
      : (graph.assertionsOf node.id).filterMap (fun assertion => assertion.text? FieldKey.label)
        = node.list FieldKey.assertions := by
    have all := filterMap_filter_filterMap back (fun _ => true)
    rw [List.filter_true, ← assertions] at all
    rw [all, List.filter_eq_self]
    intro letter listed
    obtain ⟨assertion, looked, -⟩ := back letter listed
    rw [looked]
    rfl
  have covered
      : ((graph.assertionsOf node.id).filter (fun assertion =>
            (graph.incoming assertion.id).any (graph.counts graph.cyclePositions)
              || ((graph.incoming node.id).filter (graph.counts graph.cyclePositions)).any
                (fun edge =>
                  edge.letters.contains ((assertion.text? FieldKey.label).getD "")))).filterMap
          (fun assertion => assertion.text? FieldKey.label)
        = (node.list FieldKey.assertions).filter
            (fun letter => graph.CoversLetter node.id letter) := by
    rw [assertions, filterMap_filter_filterMap back]
    refine List.filter_congr (fun letter listed => ?_)
    obtain ⟨assertion, looked, label⟩ := back letter listed
    have same : assertion.id = assertionId node.id letter := id_of_node? looked
    have there : graph.contains (assertionId node.id letter) = true :=
      contains_iff.mpr ⟨assertion, looked⟩
    rw [looked, Option.any_some, label, Option.getD_some, same, Bool.eq_iff_iff,
      decide_eq_true_eq, Bool.or_eq_true, List.any_eq_true, List.any_eq_true]
    simp only [direct, faithful.attached.mem_incoming_iff there, counts_iff,
      List.contains_iff_mem]
    constructor
    · intro given
      rcases given with ⟨edge, ⟨here, target⟩, evidence⟩ | ⟨edge, ⟨here, evidence, target⟩, named⟩
      · exact ⟨edge, here, evidence, Or.inl target⟩
      · exact ⟨edge, here, evidence, Or.inr ⟨target, named⟩⟩
    · intro given
      obtain ⟨edge, here, evidence, points⟩ := given
      rcases points with target | ⟨target, named⟩
      · exact Or.inl ⟨edge, ⟨here, target⟩, evidence⟩
      · exact Or.inr ⟨edge, ⟨here, evidence, target⟩, named⟩
  have targeted
      : (graph.incoming node.id).filter (graph.counts graph.cyclePositions) ≠ []
        ↔ graph.CoversWhole node.id := by
    rw [ne_eq, List.eq_nil_iff_forall_not_mem, not_forall]
    simp only [direct, not_not]
    rfl
  rw [requirementCoverage, declaredCoverage, letters, covered, coveredShare]
  simp only [targeted, decide_eq_true_eq]

/-- Each requirement is reported once. -/
theorem count_coverage (graph : Graph) (id : String)
    : (graph.coverage.requirements.map RequirementCoverage.id).count id
      = if graph.isRequirement id then 1 else 0 := by
  have ids
      : graph.coverage.requirements.map RequirementCoverage.id
        = graph.requirements.map Node.id := by
    rw [coverage, List.map_map]
    rfl
  have unique : (graph.requirements.map Node.id).Nodup :=
    (List.pairwise_map.mpr (graph.nodesOfKind_ordered .requirement)).imp (fun before => before.ne)
  rw [ids, unique.count]
  simp only [mem_requirementIds_iff]

/-- A share is one of the whole. -/
theorem declaredCoverage_fraction_mem (graph : Graph) (node : Node)
    : 0 ≤ (graph.declaredCoverage node).fraction ∧ (graph.declaredCoverage node).fraction ≤ 1 := by
  simp only [declaredCoverage]
  split
  · split <;> decide
  · have fewer := List.length_filter_le
      (fun letter => decide (graph.CoversLetter node.id letter))
      (node.list FieldKey.assertions)
    refine ⟨by positivity, div_le_one_of_le₀ ?_ (by positivity)⟩
    exact_mod_cast fewer

/-- The report has an entry for each requirement. -/
theorem find?_coverage {id : String} (requirement : graph.isRequirement id = true)
    : graph.coverage.find? id = some (graph.requirementCoverage graph.cyclePositions id) := by
  obtain ⟨node, found, kind⟩ := isRequirement_iff.mp requirement
  have same := id_of_node? found
  have listed : node ∈ graph.requirements := mem_nodesOfKind_iff.mpr ⟨same ▸ found, kind⟩
  have any : (graph.requirements.find? (fun other => decide (other.id = id))).isSome = true :=
    List.find?_isSome.mpr ⟨node, listed, decide_eq_true same⟩
  obtain ⟨first, here⟩ := Option.isSome_iff_exists.mp any
  have own : first.id = id := by simpa using List.find?_some here
  rw [CoverageReport.find?, coverage, List.find?_map]
  exact (congrArg (Option.map _) here).trans
    (congrArg (fun id => some (graph.requirementCoverage graph.cyclePositions id)) own)

/-- The entry of a requirement is its declared coverage. -/
theorem Faithful.find?_coverage_eq (faithful : graph.Faithful scheme) {node : Node}
    (member : node ∈ graph.requirements)
    : graph.coverage.find? node.id = some (graph.declaredCoverage node) := by
  obtain ⟨found, kind⟩ := mem_nodesOfKind_iff.mp member
  rw [find?_coverage (isRequirement_iff.mpr ⟨node, found, kind⟩),
    faithful.requirementCoverage_eq member]

/-- What does not come from a requirement counts whatever the cycles are. -/
theorem evidence_of_source {edge : Edge} (other : graph.isRequirement edge.source = false)
    (kind : edge.kind = .implements ∨ edge.kind = .validates)
    : graph.Evidence edge := by
  refine ⟨kind, fun ⟨_, owner, _, _, cycle, listed, member, _⟩ => ?_⟩
  rw [((mem_cycles_iff.mp listed).onOneCycle member).isRequirement] at other
  exact Bool.false_ne_true other.symm

/-- The report lists every requirement once with its coverage by the whole list of edges. -/
theorem coverage_eq_declared (scheme : Scheme) (sources : SourceSet)
    : (Graph.ofSources scheme sources).coverage.requirements
        = (Graph.ofSources scheme sources).requirements.map
            (Graph.ofSources scheme sources).declaredCoverage
      ∧ (∀ id,
          ((Graph.ofSources scheme sources).coverage.requirements.map
              RequirementCoverage.id).count id
            = if (Graph.ofSources scheme sources).isRequirement id then 1 else 0)
      ∧ ∀ entry ∈ (Graph.ofSources scheme sources).coverage.requirements,
          0 ≤ entry.fraction ∧ entry.fraction ≤ 1 := by
  have equal
      : (Graph.ofSources scheme sources).coverage.requirements
        = (Graph.ofSources scheme sources).requirements.map
            (Graph.ofSources scheme sources).declaredCoverage :=
    List.map_congr_left (fun node member =>
      (faithful_ofSources scheme sources).requirementCoverage_eq member)
  refine ⟨equal, count_coverage _, ?_⟩
  intro entry listed
  rw [equal] at listed
  obtain ⟨node, -, rfl⟩ := List.mem_map.mp listed
  exact declaredCoverage_fraction_mem _ node

end Graph

end Traceability
