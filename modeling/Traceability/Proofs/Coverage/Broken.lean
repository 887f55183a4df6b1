import Traceability.Proofs.Config.Compile
import Traceability.Proofs.Graph.Restriction
import Traceability.Proofs.Rule.Budget

/-! Broken references and coverage.
A reference that leads nowhere never covers a letter. It may still count for a requirement that
has no letters, and it may close a cycle, whose references then count for nothing.
-/

namespace Traceability

namespace Graph

open Relation

variable {scheme : Scheme} {graph : Graph}

-----------------------------------------------------------------------------------------
-- References along cycles
-----------------------------------------------------------------------------------------

/-- An edge to a requirement implements along a cycle exactly if its source is on one cycle with
the requirement, since a target belongs to one requirement only. -/
theorem Assembled.alongCycle_iff (assembled : graph.Assembled) {edge : Edge} {id : String}
    (requirement : graph.isRequirement id = true) (belongs : graph.Belongs edge.target id)
    : graph.AlongCycle edge
      ↔ edge.kind = .implements ∧ graph.OnOneCycle edge.source id := by
  obtain ⟨owner, owned, rfl⟩ := (owner?_id_iff requirement).mpr belongs
  refine and_congr_right (fun _ => ?_)
  rw [assembled.exists_belongs_iff, owned]
  simp only [Option.some.injEq, exists_eq_left']
  exact listed_together_iff

/-- A chain that closes to a cycle never leaves the cycle. Witness: induction from its end, as
what leads to a member and is led to from one is a member. -/
theorem OnOneCycle.chain {a b : String} (onCycle : graph.OnOneCycle a b)
    : TransGen
        (fun x y => graph.Leads x y ∧ graph.OnOneCycle x b ∧ graph.OnOneCycle y b) a b := by
  obtain ⟨forth, back⟩ := onCycle
  induction forth using TransGen.head_induction_on with
  | single leads =>
      exact .single ⟨leads, ⟨.single leads, back⟩, back.tail leads, back.tail leads⟩
  | head leads further ih =>
      have return' := back.tail leads
      exact .head ⟨leads, ⟨.head leads further, back⟩, further, return'⟩ (ih return')

-----------------------------------------------------------------------------------------
-- Taking broken references out
-----------------------------------------------------------------------------------------

/-- The graph without its broken references. -/
def withoutBroken (graph : Graph) : Graph :=
  graph.keepEdges (fun edge => !graph.isBroken edge)

/-- A broken reference implements along the cycle on which a requirement is. -/
def BrokenAlong (graph : Graph) (id : String) : Prop :=
  ∃ edge ∈ graph.edges,
    graph.isBroken edge = true
    ∧ graph.AlongCycle edge
    ∧ ∃ cycle ∈ graph.cycles, edge.source ∈ cycle ∧ id ∈ cycle

instance (graph : Graph) (id : String) : Decidable (graph.BrokenAlong id) :=
  inferInstanceAs (Decidable (∃ edge ∈ graph.edges, _))

theorem Attached.mem_withoutBroken_iff (attached : graph.Attached) {edge : Edge}
    : edge ∈ graph.withoutBroken.edges ↔ edge ∈ graph.edges ∧ graph.isBroken edge = false := by
  rw [withoutBroken, attached.mem_keepEdges_iff, Bool.not_eq_true']

theorem sameEntries_withoutBroken (graph : Graph) : graph.SameEntries graph.withoutBroken :=
  graph.sameEntries_keepEdges _

/-- What is left of the references leads where it led. -/
theorem Attached.leads_withoutBroken_iff (attached : graph.Attached) {source target : String}
    : graph.withoutBroken.Leads source target
      ↔ graph.isRequirement source = true
        ∧ graph.isRequirement target = true
        ∧ ∃ edge ∈ graph.edges,
            graph.isBroken edge = false
            ∧ edge.kind = .implements
            ∧ edge.source = source
            ∧ graph.Belongs edge.target target := by
  rw [withoutBroken, attached.leads_keepEdges_iff]
  simp only [Bool.not_eq_true']

theorem Attached.onOneCycle_of_withoutBroken (attached : graph.Attached) {a b : String}
    (onCycle : graph.withoutBroken.OnOneCycle a b)
    : graph.OnOneCycle a b :=
  ⟨TransGen.mono (fun _ _ => attached.leads_of_keepEdges) _ _ onCycle.1,
    TransGen.mono (fun _ _ => attached.leads_of_keepEdges) _ _ onCycle.2⟩

/-- A cycle stays if no broken reference runs along it. -/
theorem Faithful.onOneCycle_withoutBroken (faithful : graph.Faithful scheme) {a b : String}
    (unbroken : ¬ graph.BrokenAlong b) (onCycle : graph.OnOneCycle a b)
    : graph.withoutBroken.OnOneCycle a b := by
  have kept {x y : String} (leads : graph.Leads x y) (fromCycle : graph.OnOneCycle x b)
      (toCycle : graph.OnOneCycle y b)
      : graph.withoutBroken.Leads x y := by
    obtain ⟨first, last, edge, member, kind, rfl, target⟩ := leads
    refine faithful.attached.leads_withoutBroken_iff.mpr
      ⟨first, last, edge, member, ?_, kind, rfl, target⟩
    by_contra broken
    rw [Bool.not_eq_false] at broken
    have along := (faithful.assembled.alongCycle_iff last target).mpr
      ⟨kind, fromCycle.trans toCycle.symm⟩
    exact unbroken ⟨edge, member, broken, along, listed_together_iff.mpr fromCycle⟩
  have survives {x y : String} (onCycle : graph.OnOneCycle x y) (onward : graph.OnOneCycle y b)
      : TransGen graph.withoutBroken.Leads x y := by
    refine TransGen.mono ?_ _ _ onCycle.chain
    intro first last ⟨leads, fromCycle, toCycle⟩
    exact kept leads (fromCycle.trans onward) (toCycle.trans onward)
  exact ⟨survives onCycle (onCycle.symm.trans onCycle), survives onCycle.symm onCycle⟩

-----------------------------------------------------------------------------------------
-- Evidence that is left
-----------------------------------------------------------------------------------------

theorem isBroken_false_iff {edge : Edge} (reference : edge.kind ≠ .contains)
    : graph.isBroken edge = false
      ↔ ∃ target,
          graph.node? edge.target = some target
          ∧ ∀ letter ∈ edge.letters, letter ∈ target.list FieldKey.assertions := by
  rw [← Bool.not_eq_true, isBroken_iff]
  cases graph.node? edge.target with
  | none => simp [reference]
  | some target => simp [reference]

theorem Evidence.isReference {edge : Edge} (evidence : graph.Evidence edge)
    : edge.kind ≠ .contains := by
  rcases evidence.1 with kind | kind <;> rw [kind] <;> exact EdgeKind.noConfusion

/-- Evidence for a letter is no broken reference. Witness: the letter has an assertion, and an
edge that names letters names this one only. -/
theorem Faithful.isBroken_of_pointsAt (faithful : graph.Faithful scheme)
    (names : graph.NamesLetters scheme) {node : Node} (member : node ∈ graph.requirements)
    {letter : String} (listed : letter ∈ node.list FieldKey.assertions) {edge : Edge}
    (here : edge ∈ graph.edges) (reference : edge.kind ≠ .contains)
    (points : PointsAt node.id letter edge)
    : graph.isBroken edge = false := by
  obtain ⟨found, kind⟩ := mem_nodesOfKind_iff.mp member
  rw [isBroken_false_iff reference]
  rcases points with target | ⟨target, named⟩
  · obtain ⟨assertion, present, -⟩ := faithful.exists_assertion member listed
    refine ⟨assertion, target ▸ present, ?_⟩
    rcases names edge here with none | ⟨-, isId⟩
    · simp [none]
    · obtain ⟨c, -, rfl⟩ := faithful.assembled.capital node.id node.bare (bare?_of_node? found)
        kind letter listed
      have ownId := faithful.lettered.named node.id node.bare (bare?_of_node? found) kind
      exact absurd (target ▸ isId) (Scheme.not_isId_assertionId ownId c)
  · refine ⟨node, target ▸ found, ?_⟩
    rcases names edge here with none | ⟨⟨single, own⟩, -⟩
    · simp [none]
    · rw [own, List.mem_singleton] at named
      rw [own, ← named]
      simpa using listed

/-- What is evidence stays evidence, as fewer edges make fewer cycles. -/
theorem Faithful.evidence_withoutBroken (faithful : graph.Faithful scheme) {edge : Edge}
    (evidence : graph.Evidence edge)
    : graph.withoutBroken.Evidence edge := by
  refine ⟨evidence.1, fun along => evidence.2 ?_⟩
  obtain ⟨kind, id, listed, belongs, together⟩ := along
  rw [graph.sameEntries_withoutBroken.requirementIds_eq] at listed
  rw [graph.sameEntries_withoutBroken.belongs_iff] at belongs
  rw [listed_together_iff] at together
  exact ⟨kind, id, listed, belongs,
    listed_together_iff.mpr (faithful.attached.onOneCycle_of_withoutBroken together)⟩

/-- Evidence for a requirement was evidence before, if no broken reference runs along the cycle
of the requirement. -/
theorem Faithful.evidence_of_withoutBroken (faithful : graph.Faithful scheme) {id : String}
    (requirement : graph.isRequirement id = true) (unbroken : ¬ graph.BrokenAlong id)
    {edge : Edge} (belongs : graph.Belongs edge.target id)
    (evidence : graph.withoutBroken.Evidence edge)
    : graph.Evidence edge := by
  refine ⟨evidence.1, fun along => evidence.2 ?_⟩
  obtain ⟨kind, onCycle⟩ := (faithful.assembled.alongCycle_iff requirement belongs).mp along
  have left := (faithful.keepEdges (fun edge => !graph.isBroken edge)).assembled
  refine (left.alongCycle_iff ?_ (graph.sameEntries_withoutBroken.belongs_iff.mpr belongs)).mpr
    ⟨kind, faithful.onOneCycle_withoutBroken unbroken onCycle⟩
  exact graph.sameEntries_withoutBroken.isRequirement_iff.mpr requirement

-----------------------------------------------------------------------------------------
-- Coverage without broken references
-----------------------------------------------------------------------------------------

/-- The edges that are evidence for a requirement all name letters, and there is one. -/
def OnlyLettered (graph : Graph) (id : String) : Prop :=
  graph.CoversWhole id
  ∧ ∀ edge ∈ graph.edges, graph.Evidence edge → edge.target = id → edge.letters ≠ []

/-- A covered letter stays covered. -/
theorem Faithful.coversLetter_withoutBroken (faithful : graph.Faithful scheme)
    (names : graph.NamesLetters scheme) {node : Node} (member : node ∈ graph.requirements)
    {letter : String} (listed : letter ∈ node.list FieldKey.assertions)
    (covers : graph.CoversLetter node.id letter)
    : graph.withoutBroken.CoversLetter node.id letter := by
  obtain ⟨edge, here, evidence, points⟩ := covers
  have sound := faithful.isBroken_of_pointsAt names member listed here evidence.isReference points
  exact ⟨edge, faithful.attached.mem_withoutBroken_iff.mpr ⟨here, sound⟩,
    faithful.evidence_withoutBroken evidence, points⟩

/-- What points at a letter of a requirement belongs to the requirement. -/
theorem Faithful.belongs_of_pointsAt (faithful : graph.Faithful scheme) {node : Node}
    (member : node ∈ graph.requirements) {letter : String}
    (listed : letter ∈ node.list FieldKey.assertions) {edge : Edge}
    (points : PointsAt node.id letter edge)
    : graph.Belongs edge.target node.id := by
  rcases points with target | ⟨target, -⟩
  · obtain ⟨assertion, present, isKind, owner, _⟩ := faithful.exists_assertion member listed
    exact Or.inr ⟨assertion, target ▸ present, isKind, owner⟩
  · exact Or.inl target

/-- The letters that are covered are the same, if no broken reference runs along the cycle of the
requirement. -/
theorem Faithful.coversLetter_withoutBroken_iff (faithful : graph.Faithful scheme)
    (names : graph.NamesLetters scheme) {node : Node} (member : node ∈ graph.requirements)
    (unbroken : ¬ graph.BrokenAlong node.id) {letter : String}
    (listed : letter ∈ node.list FieldKey.assertions)
    : graph.withoutBroken.CoversLetter node.id letter ↔ graph.CoversLetter node.id letter := by
  refine ⟨?_, faithful.coversLetter_withoutBroken names member listed⟩
  intro ⟨edge, left, evidence, points⟩
  obtain ⟨found, kind⟩ := mem_nodesOfKind_iff.mp member
  refine ⟨edge, (faithful.attached.mem_withoutBroken_iff.mp left).1, ?_, points⟩
  exact faithful.evidence_of_withoutBroken (isRequirement_iff.mpr ⟨node, found, kind⟩) unbroken
    (faithful.belongs_of_pointsAt member listed points) evidence

/-- What still counts for a requirement without letters are the edges that name none. -/
theorem Faithful.coversWhole_withoutBroken_iff (faithful : graph.Faithful scheme) {node : Node}
    (member : node ∈ graph.requirements) (unbroken : ¬ graph.BrokenAlong node.id)
    (bare : node.list FieldKey.assertions = [])
    : graph.withoutBroken.CoversWhole node.id
      ↔ graph.CoversWhole node.id ∧ ¬ graph.OnlyLettered node.id := by
  obtain ⟨found, kind⟩ := mem_nodesOfKind_iff.mp member
  have plain {edge : Edge} (reference : edge.kind ≠ .contains) (target : edge.target = node.id)
      : graph.isBroken edge = false ↔ edge.letters = [] := by
    rw [isBroken_false_iff reference, target, found]
    simp [bare, List.eq_nil_iff_forall_not_mem]
  constructor
  · intro ⟨edge, left, evidence, target⟩
    obtain ⟨here, sound⟩ := faithful.attached.mem_withoutBroken_iff.mp left
    have before := faithful.evidence_of_withoutBroken (isRequirement_iff.mpr ⟨node, found, kind⟩)
      unbroken (Or.inl target) evidence
    refine ⟨⟨edge, here, before, target⟩, fun lettered => ?_⟩
    exact lettered.2 edge here before target ((plain before.isReference target).mp sound)
  · intro ⟨covers, others⟩
    have exists' : ∃ edge ∈ graph.edges,
        graph.Evidence edge ∧ edge.target = node.id ∧ edge.letters = [] := by
      by_contra none
      refine others ⟨covers, fun edge here evidence target letters => none ?_⟩
      exact ⟨edge, here, evidence, target, letters⟩
    obtain ⟨edge, here, evidence, target, letters⟩ := exists'
    have sound := (plain evidence.isReference target).mpr letters
    exact ⟨edge, faithful.attached.mem_withoutBroken_iff.mpr ⟨here, sound⟩,
      faithful.evidence_withoutBroken evidence, target⟩

/-- The entry of a requirement without broken references is its declared coverage by what is
left. -/
theorem Faithful.find?_coverage_withoutBroken (faithful : graph.Faithful scheme) {node : Node}
    (member : node ∈ graph.requirements)
    : graph.withoutBroken.coverage.find? node.id
      = some (graph.withoutBroken.declaredCoverage node) := by
  obtain ⟨copy, copied, bare⟩ := graph.sameEntries_withoutBroken.exists_copy member
  have id : copy.id = node.id := congrArg (fun entry => entry.id) bare
  have left : graph.withoutBroken.Faithful scheme := faithful.keepEdges _
  rw [← id, left.find?_coverage_eq copied, ← declaredCoverage_bare, bare, declaredCoverage_bare]

/-- Taking the broken references out never uncovers a letter. Unless one of them runs along the
cycle of a requirement, the requirement has the same letters covered, and its share changes only
if it lists no letters and all that counts for it names letters. -/
theorem coverage_withoutBroken (scheme : Scheme) (sources : SourceSet) {id : String}
    (requirement : (Graph.ofSources scheme sources).isRequirement id = true)
    : let graph := Graph.ofSources scheme sources
      ∃ before after,
        graph.coverage.find? id = some before
        ∧ graph.withoutBroken.coverage.find? id = some after
        ∧ after.letters = before.letters
        ∧ before.covered.Sublist after.covered
        ∧ (¬ graph.BrokenAlong id →
            after.covered = before.covered
            ∧ (after.fraction = before.fraction
              ↔ ¬ (before.letters = [] ∧ graph.OnlyLettered id))) := by
  intro graph
  have faithful : graph.Faithful scheme := faithful_ofSources scheme sources
  have names : graph.NamesLetters scheme := namesLetters_assemble scheme _
  obtain ⟨node, found, kind⟩ := isRequirement_iff.mp requirement
  obtain rfl := id_of_node? found
  have member : node ∈ graph.requirements := mem_nodesOfKind_iff.mpr ⟨found, kind⟩
  have before := faithful.find?_coverage_eq member
  have after := faithful.find?_coverage_withoutBroken member
  refine ⟨_, _, before, after, rfl, ?_, ?_⟩
  · have narrowed
        : (graph.declaredCoverage node).covered
          = (graph.withoutBroken.declaredCoverage node).covered.filter
              (fun letter => graph.CoversLetter node.id letter) := by
      simp only [declaredCoverage, List.filter_filter]
      refine List.filter_congr (fun letter listed => ?_)
      have stays := faithful.coversLetter_withoutBroken names member listed
      by_cases covers : graph.CoversLetter node.id letter
      · simp [covers, stays covers]
      · simp [covers]
    rw [narrowed]
    exact List.filter_sublist
  · intro unbroken
    have covered
        : (graph.withoutBroken.declaredCoverage node).covered
          = (graph.declaredCoverage node).covered := by
      refine List.filter_congr (fun letter listed => ?_)
      rw [decide_eq_decide]
      exact faithful.coversLetter_withoutBroken_iff names member unbroken listed
    refine ⟨covered, ?_⟩
    by_cases bare : node.list FieldKey.assertions = []
    · have whole := faithful.coversWhole_withoutBroken_iff member unbroken bare
      by_cases covers : graph.CoversWhole node.id
        <;> by_cases lettered : graph.OnlyLettered node.id
        <;> simp_all [declaredCoverage, OnlyLettered]
    · have shares
          : (graph.withoutBroken.declaredCoverage node).fraction
            = (graph.declaredCoverage node).fraction := by
        rw [declaredCoverage, declaredCoverage] at covered ⊢
        simp only [if_neg bare] at covered ⊢
        rw [covered]
      exact iff_of_true shares (fun given => bare given.1)

/-- Code names a letter of a requirement together with one that the requirement lacks. -/
def halfAbsent : SourceSet where
  files := [
    ⟨"login.md", "# REQ-p00001: Login\nA. Ask for a name.\n*End* *Login*\n"⟩,
    ⟨"login.rs", "// Implements: REQ-p00001-A-C\n"⟩]

theorem coverage_withoutBroken_halfAbsent
    : let graph := Graph.ofSources Config.defaultScheme halfAbsent
      graph.isRequirement "REQ-p00001" = true
      ∧ ¬ graph.BrokenAlong "REQ-p00001"
      ∧ (∃ edge ∈ graph.edges, graph.isBroken edge = true)
      ∧ ∃ before after,
          graph.coverage.find? "REQ-p00001" = some before
          ∧ graph.withoutBroken.coverage.find? "REQ-p00001" = some after
          ∧ after.letters = before.letters
          ∧ before.covered.Sublist after.covered
          ∧ after.covered = before.covered
          ∧ (after.fraction = before.fraction
            ↔ ¬ (before.letters = [] ∧ graph.OnlyLettered "REQ-p00001")) := by
  intro graph
  have evaluated
      : graph.isRequirement "REQ-p00001" = true
        ∧ (∃ edge ∈ graph.edges.toList, graph.isBroken edge = true)
        ∧ ∀ edge ∈ graph.edges.toList, graph.isBroken edge = true →
            graph.isRequirement edge.source = false := by
    decide +kernel
  simp only [Array.mem_toList_iff] at evaluated
  obtain ⟨requirement, broken, fromCode⟩ := evaluated
  have unbroken : ¬ graph.BrokenAlong "REQ-p00001" := by
    intro ⟨edge, here, leadsNowhere, along, _⟩
    exact (evidence_of_source (fromCode edge here leadsNowhere) (Or.inl along.1)).2 along
  obtain ⟨before, after, reported, left, letters, stay, rest⟩ :=
    coverage_withoutBroken Config.defaultScheme halfAbsent requirement
  exact ⟨requirement, unbroken, broken, before, after, reported, left, letters, stay,
    rest unbroken⟩

-----------------------------------------------------------------------------------------
-- Broken references that do count
-----------------------------------------------------------------------------------------

/-- One requirement closes a cycle by letters that the other lacks, and code names these letters
too. -/
def absentLetters : SourceSet where
  files := [
    ⟨"login.md", "# REQ-p00001: Login\n**Level**: PRD | **Implements**: REQ-p00002-B-C\n"
      ++ "A. Ask for a name.\n*End* *Login*\n"⟩,
    ⟨"form.md", "# REQ-p00002: Form\n**Level**: PRD | **Implements**: REQ-p00001-A\n"
      ++ "*End* *Form*\n"⟩,
    ⟨"form.rs", "// Implements: REQ-p00002-B-C\n"⟩]

/-- Without the broken references a requirement loses the coverage that it had by letters which
it lacks, and another, no longer on a cycle, gains the letter that a sound reference names. -/
theorem coverage_withoutBroken_absentLetters
    : let graph := Graph.ofSources Config.defaultScheme absentLetters
      (graph.coverage.find? "REQ-p00002").map RequirementCoverage.fraction = some 1
      ∧ (graph.withoutBroken.coverage.find? "REQ-p00002").map RequirementCoverage.fraction = some 0
      ∧ (graph.coverage.find? "REQ-p00001").map RequirementCoverage.covered = some []
      ∧ (graph.withoutBroken.coverage.find? "REQ-p00001").map RequirementCoverage.covered
          = some ["A"] := by
  intro graph
  have faithful : graph.Faithful Config.defaultScheme := faithful_ofSources _ _
  have evaluated
      : graph.requirements.map (fun node => (node.id, node.list FieldKey.assertions))
          = [("REQ-p00001", ["A"]), ("REQ-p00002", [])]
        ∧ (graph.owner? "REQ-p00001-A").map Node.id = some "REQ-p00001"
        ∧ graph.isRequirement "code:form.rs:1" = false
        ∧ (∃ edge ∈ graph.edges.toList,
            edge.kind = .implements ∧ edge.source = "code:form.rs:1" ∧ edge.target = "REQ-p00002")
        ∧ (∃ edge ∈ graph.edges.toList,
            edge.kind = .implements ∧ edge.source = "REQ-p00001" ∧ edge.target = "REQ-p00002")
        ∧ (∃ edge ∈ graph.edges.toList,
            edge.kind = .implements ∧ edge.source = "REQ-p00002" ∧ edge.target = "REQ-p00001-A"
            ∧ graph.isBroken edge = false)
        ∧ (∀ edge ∈ graph.edges.toList,
            edge.target = "REQ-p00001-A" →
              edge.kind = .contains ∨ edge.kind = .implements ∧ edge.source = "REQ-p00002")
        ∧ (∀ edge ∈ graph.edges.toList, edge.target ≠ "REQ-p00001")
        ∧ ∀ edge ∈ graph.edges.toList, graph.isBroken edge = false →
            edge.target ≠ "REQ-p00002"
            ∧ (edge.kind = .implements → edge.source ≠ "REQ-p00001") := by
    decide +kernel
  simp only [Array.mem_toList_iff] at evaluated
  obtain ⟨requirements, owner, code, ⟨byCode, coded, codeKind, codeSource, codeTarget⟩,
    ⟨forth, forthHere, forthKind, forthSource, forthTarget⟩,
    ⟨back, backHere, backKind, backSource, backTarget, sound⟩, only, none, left⟩ := evaluated
  -- The two requirements and their entries in both reports.
  obtain ⟨login, others, all, loginParts, rest⟩ := List.map_eq_cons_iff.mp requirements
  obtain ⟨form, further, rfl, formParts, -⟩ := List.map_eq_cons_iff.mp rest
  obtain ⟨loginId, loginLetters⟩ := Prod.mk.inj loginParts
  obtain ⟨formId, formLetters⟩ := Prod.mk.inj formParts
  have loginMember : login ∈ graph.requirements := all ▸ by simp
  have formMember : form ∈ graph.requirements := all ▸ by simp
  have isLogin : graph.isRequirement "REQ-p00001" = true :=
    mem_requirementIds_iff.mp (loginId ▸ List.mem_map_of_mem loginMember)
  have isForm : graph.isRequirement "REQ-p00002" = true :=
    mem_requirementIds_iff.mp (formId ▸ List.mem_map_of_mem formMember)
  have formBefore := faithful.find?_coverage_eq formMember
  have formAfter := faithful.find?_coverage_withoutBroken formMember
  have loginBefore := faithful.find?_coverage_eq loginMember
  have loginAfter := faithful.find?_coverage_withoutBroken loginMember
  rw [formId] at formBefore formAfter
  rw [loginId] at loginBefore loginAfter
  rw [formBefore, formAfter, loginBefore, loginAfter]
  simp only [Option.map_some, Option.some.injEq, declaredCoverage, formLetters, loginLetters,
    formId, loginId, if_true]
  have belongs : graph.Belongs "REQ-p00001-A" "REQ-p00001" :=
    (owner?_id_iff isLogin).mp (Option.map_eq_some_iff.mp owner)
  have onCycle : graph.OnOneCycle "REQ-p00002" "REQ-p00001" :=
    ⟨.single ⟨isForm, isLogin, back, backHere, backKind, backSource, backTarget ▸ belongs⟩,
      .single ⟨isLogin, isForm, forth, forthHere, forthKind, forthSource, Or.inl forthTarget⟩⟩
  have ends : ¬ graph.withoutBroken.OnOneCycle "REQ-p00002" "REQ-p00001" := by
    intro again
    obtain ⟨next, leads, -⟩ := TransGen.head'_iff.mp again.2
    obtain ⟨-, -, edge, here, intact, kind, source, -⟩ :=
      faithful.attached.leads_withoutBroken_iff.mp leads
    exact (left edge here intact).2 kind source
  refine ⟨if_pos ?_, if_neg ?_, ?_, ?_⟩
  · exact ⟨byCode, coded, evidence_of_source (codeSource ▸ code) (Or.inl codeKind), codeTarget⟩
  · intro given
    obtain ⟨edge, kept, -, target⟩ := given
    obtain ⟨here, intact⟩ := faithful.attached.mem_withoutBroken_iff.mp kept
    exact (left edge here intact).1 target
  · refine List.filter_eq_nil_iff.mpr (fun letter listed => ?_)
    rw [List.mem_singleton.mp listed, decide_eq_true_eq]
    intro given
    obtain ⟨edge, here, evidence, points⟩ := given
    rcases points with target | ⟨target, _⟩
    · rcases only edge here target with kind | ⟨kind, source⟩
      · exact evidence.isReference kind
      · exact evidence.2 ((faithful.assembled.alongCycle_iff isLogin (target ▸ belongs)).mpr
          ⟨kind, source ▸ onCycle⟩)
    · exact none edge here target
  · refine List.filter_eq_self.mpr (fun letter listed => ?_)
    rw [List.mem_singleton.mp listed, decide_eq_true_eq]
    refine ⟨back, faithful.attached.mem_withoutBroken_iff.mpr ⟨backHere, sound⟩,
      ⟨Or.inl backKind, fun along => ends ?_⟩, Or.inl backTarget⟩
    have assembled := (faithful.keepEdges (fun edge => !graph.isBroken edge)).assembled
    have isLeft := graph.sameEntries_withoutBroken.isRequirement_iff.mpr isLogin
    have stays := graph.sameEntries_withoutBroken.belongs_iff.mpr belongs
    exact backSource ▸ ((assembled.alongCycle_iff isLeft (backTarget ▸ stays)).mp along).2

end Graph

end Traceability
