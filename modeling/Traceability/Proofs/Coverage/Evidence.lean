import Traceability.Proofs.Coverage.Definition

/-! Coverage by evidence.
The coverage of a requirement is put as a function of the evidence for nodes and of the letters of
assertions. Further evidence never takes coverage away, and so graphs in which nodes have the same
roles are compared by their evidence.
-/

namespace Traceability

-----------------------------------------------------------------------------------------
-- Coverage that grows
-----------------------------------------------------------------------------------------

namespace RequirementCoverage

/-- The coverage of a requirement has become no less. -/
structure Grows (before after : RequirementCoverage) : Prop where
  id : after.id = before.id
  letters : after.letters = before.letters
  covered : before.covered.Sublist after.covered
  fraction : before.fraction ≤ after.fraction

variable {before after : RequirementCoverage}

theorem Grows.antisymm (grows : before.Grows after) (shrinks : after.Grows before)
    : after = before := by
  obtain ⟨id, letters, covered, fraction⟩ := grows
  have sameCovered := shrinks.covered.antisymm covered
  have sameFraction := le_antisymm shrinks.fraction fraction
  cases before
  cases after
  simp only at id letters sameCovered sameFraction
  rw [id, letters, sameCovered, sameFraction]

end RequirementCoverage

namespace Graph

/-- A share does not shrink with further letters. -/
theorem coveredShare_le {letters covered more : List String} (grows : covered.Sublist more)
    {targeted targetedMore : Bool}
    (whole : letters = [] → targeted = true → targetedMore = true)
    : coveredShare letters covered targeted ≤ coveredShare letters more targetedMore := by
  simp only [coveredShare]
  by_cases none : letters = []
  · rw [if_pos none, if_pos none]
    cases targeted with
    | true => rw [whole none rfl]
    | false => cases targetedMore <;> decide
  · rw [if_neg none, if_neg none]
    have fewer : (covered.length : Rat) ≤ (more.length : Rat) := by
      exact_mod_cast grows.length_le
    exact div_le_div_of_nonneg_right fewer (by positivity)

-----------------------------------------------------------------------------------------
-- Evidence for nodes
-----------------------------------------------------------------------------------------

/-- The letters that the evidence for a node names, a list for each edge. -/
def evidenceAt (graph : Graph) (id : String) : List (List String) :=
  ((graph.incoming id).filter (graph.counts graph.cyclePositions)).map Edge.letters

/-- The assertions of a requirement by identifier, each with the letter that it has. -/
def marks (graph : Graph) (id : String) : List (String × Option String) :=
  (graph.assertionsOf id).map (fun node => (node.id, node.text? FieldKey.label))

/-- Whether there is evidence for an assertion, or evidence for the requirement that names its
letter. -/
def isMarkCovered (evidence : String → List (List String)) (id : String)
    (mark : String × Option String)
    : Bool :=
  evidence mark.1 ≠ []
  || (evidence id).any (fun letters => letters.contains (mark.2.getD ""))

/-- The coverage of a requirement with these assertions by this evidence. -/
def coverageBy (evidence : String → List (List String)) (id : String)
    (marks : List (String × Option String))
    : RequirementCoverage :=
  let letters := marks.filterMap Prod.snd
  let covered := (marks.filter (isMarkCovered evidence id)).filterMap Prod.snd
  { id, letters, covered, fraction := coveredShare letters covered (evidence id ≠ []) }

theorem any_counts_eq (graph : Graph) (id : String)
    : (graph.incoming id).any (graph.counts graph.cyclePositions)
      = decide (graph.evidenceAt id ≠ []) := by
  rw [Bool.eq_iff_iff, decide_eq_true_eq, List.any_eq_true, evidenceAt, ne_eq,
    List.map_eq_nil_iff, List.filter_eq_nil_iff]
  push Not
  rfl

theorem requirementCoverage_eq_coverageBy (graph : Graph) (id : String)
    : graph.requirementCoverage graph.cyclePositions id
      = coverageBy graph.evidenceAt id (graph.marks id) := by
  have letters
      : (graph.assertionsOf id).filterMap (fun node => node.text? FieldKey.label)
        = (graph.marks id).filterMap Prod.snd := by
    rw [marks, List.filterMap_map]
    rfl
  have covered
      : ((graph.assertionsOf id).filter (fun assertion =>
            (graph.incoming assertion.id).any (graph.counts graph.cyclePositions)
            || ((graph.incoming id).filter (graph.counts graph.cyclePositions)).any (fun edge =>
              edge.letters.contains ((assertion.text? FieldKey.label).getD "")))).filterMap
          (fun node => node.text? FieldKey.label)
        = ((graph.marks id).filter (isMarkCovered graph.evidenceAt id)).filterMap Prod.snd := by
    rw [marks, List.filter_map, List.filterMap_map]
    refine congrArg (List.filterMap _) (List.filter_congr (fun assertion _ => ?_))
    rw [Function.comp_apply, isMarkCovered, any_counts_eq, evidenceAt, evidenceAt, List.any_map]
    rfl
  have targeted
      : decide ((graph.incoming id).filter (graph.counts graph.cyclePositions) ≠ [])
        = decide (graph.evidenceAt id ≠ []) := by
    simp only [evidenceAt, ne_eq, List.map_eq_nil_iff]
  rw [requirementCoverage, coverageBy, letters, covered]
  simp only [targeted]

/-- More letters are selected by a test that selects every mark with a letter again. -/
theorem letters_sublist {marks : List (String × Option String)}
    {test more : String × Option String → Bool}
    (again : ∀ mark ∈ marks, mark.2.isSome = true → test mark = true → more mark = true)
    : ((marks.filter test).filterMap Prod.snd).Sublist
        ((marks.filter more).filterMap Prod.snd) := by
  induction marks with
  | nil => exact List.Sublist.refl _
  | cons mark rest ih =>
      have later := ih (fun other member => again other (List.mem_cons_of_mem _ member))
      rw [List.filter_cons, List.filter_cons]
      cases letter : mark.2 with
      | none => split <;> split <;> simpa only [List.filterMap_cons_none letter] using later
      | some own =>
          by_cases selected : test mark = true
          · have also := again mark List.mem_cons_self (by rw [letter]; rfl) selected
            rw [if_pos selected, if_pos also, List.filterMap_cons_some letter,
              List.filterMap_cons_some letter]
            exact later.cons_cons own
          · rw [if_neg selected]
            split
            · rw [List.filterMap_cons_some letter]
              exact later.cons own
            · exact later

/-- Further evidence takes no coverage away. -/
theorem coverageBy_grows {evidence more : String → List (List String)} {id : String}
    {marks : List (String × Option String)}
    (covers
      : ∀ mark ∈ marks, mark.2.isSome = true → isMarkCovered evidence id mark = true →
          isMarkCovered more id mark = true)
    (whole : marks.filterMap Prod.snd = [] → evidence id ≠ [] → more id ≠ [])
    : (coverageBy evidence id marks).Grows (coverageBy more id marks) := by
  have covered
      : (coverageBy evidence id marks).covered.Sublist (coverageBy more id marks).covered :=
    letters_sublist covers
  refine ⟨rfl, rfl, covered, coveredShare_le covered ?_⟩
  simpa only [decide_eq_true_eq] using whole

/-- Evidence that covers the same letters makes the same coverage. -/
theorem coverageBy_congr {evidence other : String → List (List String)} {id : String}
    {marks : List (String × Option String)}
    (covers
      : ∀ mark ∈ marks, mark.2.isSome = true →
          (isMarkCovered other id mark = true ↔ isMarkCovered evidence id mark = true))
    (whole : marks.filterMap Prod.snd = [] → (other id ≠ [] ↔ evidence id ≠ []))
    : coverageBy other id marks = coverageBy evidence id marks := by
  have grows : (coverageBy evidence id marks).Grows (coverageBy other id marks) :=
    coverageBy_grows (fun mark member letter => (covers mark member letter).mpr)
      (fun none => (whole none).mpr)
  have shrinks : (coverageBy other id marks).Grows (coverageBy evidence id marks) :=
    coverageBy_grows (fun mark member letter => (covers mark member letter).mp)
      (fun none => (whole none).mp)
  exact grows.antisymm shrinks

-----------------------------------------------------------------------------------------
-- Graphs with the same roles
-----------------------------------------------------------------------------------------

variable {graph other : Graph}

/-- The letters of assertions follow from the roles of nodes. -/
theorem marks_eq_roles (graph : Graph) (id : String)
    : graph.marks id
      = (((graph.node? id).map Node.role).map Role.letters |>.getD []).filterMap (fun letter =>
          ((graph.node? (assertionId id letter)).map Node.role).map (fun role =>
            (assertionId id letter, role.letter?))) := by
  rw [marks, assertionsOf]
  cases graph.node? id with
  | none => rfl
  | some node =>
      rw [List.map_filterMap]
      refine List.filterMap_congr (fun letter _ => ?_)
      cases found : graph.node? (assertionId id letter) with
      | none => rfl
      | some assertion =>
          rw [Option.map_some, Option.map_some, Option.map_some, id_of_node? found]
          rfl

theorem SameRoles.marks_eq (same : graph.SameRoles other) (id : String)
    : other.marks id = graph.marks id := by
  simp only [marks_eq_roles, same id, same (assertionId id _)]

/-- The report lists the coverage of every requirement by the evidence. -/
theorem requirements_coverage_eq (graph : Graph)
    : graph.coverage.requirements
      = (graph.requirements.map Node.id).map (fun id =>
          coverageBy graph.evidenceAt id (graph.marks id)) := by
  rw [coverage, List.map_map]
  exact List.map_congr_left (fun node _ => graph.requirementCoverage_eq_coverageBy node.id)

/-- The report grows if the evidence for each requirement does. -/
theorem SameRoles.forall₂_grows (same : graph.SameRoles other)
    (grows
      : ∀ id, graph.isRequirement id = true →
          (coverageBy graph.evidenceAt id (graph.marks id)).Grows
            (coverageBy other.evidenceAt id (graph.marks id)))
    : List.Forall₂ RequirementCoverage.Grows graph.coverage.requirements
        other.coverage.requirements := by
  rw [requirements_coverage_eq, requirements_coverage_eq, same.requirementIds_eq,
    List.forall₂_map_left_iff, List.forall₂_map_right_iff, List.forall₂_same]
  intro id listed
  rw [same.marks_eq]
  exact grows id (mem_requirementIds_iff.mp listed)

/-- The report is the same if the coverage of each requirement by the evidence is. -/
theorem SameRoles.coverage_eq (same : graph.SameRoles other)
    (cycles : other.cycles = graph.cycles)
    (agree
      : ∀ id, graph.isRequirement id = true →
          coverageBy other.evidenceAt id (graph.marks id)
          = coverageBy graph.evidenceAt id (graph.marks id))
    : other.coverage = graph.coverage := by
  have requirements : other.coverage.requirements = graph.coverage.requirements := by
    rw [requirements_coverage_eq, requirements_coverage_eq, same.requirementIds_eq]
    refine List.map_congr_left (fun id listed => ?_)
    rw [same.marks_eq]
    exact agree id (mem_requirementIds_iff.mp listed)
  exact congrArg₂ CoverageReport.mk requirements cycles

end Graph

end Traceability
