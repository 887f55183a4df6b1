import Traceability.Proofs.Coverage.Evidence
import Traceability.Proofs.Coverage.Rearranged
import Traceability.Proofs.Graph.Splitting

/-! Coverage does not depend on how letters are written.
An edge to a requirement that names a letter and an edge to the assertion with that letter belong
to the same requirement, so they lie along the same cycles, and they are evidence for the same
letter. A requirement with assertions is not covered as a whole, so it loses nothing either.
-/

namespace Traceability

namespace Graph

variable {graph other : Graph}

-----------------------------------------------------------------------------------------
-- What assertions belong to
-----------------------------------------------------------------------------------------

namespace HasAssertion

variable {requirement : String} {letter : Char}

/-- No requirement stands under the identifier of an assertion. -/
theorem not_isRequirement (has : graph.HasAssertion requirement letter)
    : ¬ graph.isRequirement (assertionId requirement letter.toString) = true := by
  intro isRequirement
  obtain ⟨node, found, role⟩ := has.found
  obtain ⟨own, same, kind⟩ := isRequirement_iff.mp isRequirement
  obtain rfl := Option.some.inj (found.symm.trans same)
  exact NodeKind.noConfusion ((congrArg Role.kind role).symm.trans kind)

/-- An assertion belongs to its requirement and to no other. -/
theorem belongs_iff (has : graph.HasAssertion requirement letter) {owner : String}
    (isRequirement : graph.isRequirement owner = true)
    : graph.Belongs (assertionId requirement letter.toString) owner ↔ requirement = owner := by
  obtain ⟨node, found, role⟩ := has.found
  have kind : node.kind = .assertion := congrArg Role.kind role
  have names : node.text? FieldKey.requirement = some requirement := congrArg Role.requirement? role
  constructor
  · rintro (same | ⟨other, there, -, namesOther⟩)
    · exact absurd (same ▸ isRequirement) has.not_isRequirement
    · obtain rfl := Option.some.inj (found.symm.trans there)
      exact Option.some.inj (names.symm.trans namesOther)
  · rintro rfl
    exact Or.inr ⟨node, found, kind, names⟩

/-- The requirement of an assertion belongs to itself only. -/
theorem belongs_requirement_iff (has : graph.HasAssertion requirement letter) {owner : String}
    : graph.Belongs requirement owner ↔ requirement = owner := by
  obtain ⟨own, there, isRequirement, -⟩ := has.listed
  refine or_iff_left ?_
  rintro ⟨node, found, kind, -⟩
  obtain rfl := Option.some.inj (there.symm.trans found)
  exact NodeKind.noConfusion (isRequirement.symm.trans kind)

end HasAssertion

-----------------------------------------------------------------------------------------
-- Edges that are split
-----------------------------------------------------------------------------------------

namespace SplitsEdge

variable {edge copy : Edge}

theorem kind_eq (splits : graph.SplitsEdge edge copy) : copy.kind = edge.kind := by
  cases splits with
  | same _ kind => exact kind
  | split _ kind => exact kind

theorem source_eq (splits : graph.SplitsEdge edge copy) : copy.source = edge.source := by
  cases splits with
  | same source => exact source
  | split source => exact source

/-- The targets belong to the same requirements. -/
theorem belongs_iff (splits : graph.SplitsEdge edge copy) {owner : String}
    (isRequirement : graph.isRequirement owner = true)
    : graph.Belongs copy.target owner ↔ graph.Belongs edge.target owner := by
  cases splits with
  | same _ _ target => rw [target]
  | split _ _ target _ _ has =>
      rw [target, has.belongs_iff isRequirement, has.belongs_requirement_iff]

theorem evidence_iff (splits : graph.SplitsEdge edge copy)
    : graph.Evidence copy ↔ graph.Evidence edge := by
  have along : graph.AlongCycle copy ↔ graph.AlongCycle edge := by
    rw [AlongCycle, AlongCycle, splits.kind_eq, splits.source_eq]
    refine and_congr_right (fun _ => exists_congr (fun owner => and_congr_right (fun listed => ?_)))
    rw [splits.belongs_iff (mem_requirementIds_iff.mp listed)]
  rw [Evidence, Evidence, splits.kind_eq, along]

/-- An edge that names a letter and one to its assertion point at the same letter. -/
theorem pointsAt_iff (splits : graph.SplitsEdge edge copy) {id : String} {letter : Char}
    (has : graph.HasAssertion id letter)
    : PointsAt id letter.toString copy ↔ PointsAt id letter.toString edge := by
  cases splits with
  | same _ _ target letters => rw [PointsAt, PointsAt, target, letters]
  | @split own _ _ target names whole hasOwn =>
      rw [PointsAt, PointsAt, target, names, whole, List.mem_singleton, assertionId_inj]
      obtain ⟨node, there, kind, -⟩ := hasOwn.listed
      have apart : ¬ edge.target = assertionId id letter.toString := fun same =>
        has.not_isRequirement (same ▸ isRequirement_iff.mpr ⟨node, there, kind⟩)
      constructor
      · rintro (⟨target, rfl⟩ | ⟨-, none⟩)
        · exact Or.inr ⟨target, rfl⟩
        · exact absurd none List.not_mem_nil
      · rintro (same | ⟨target, same⟩)
        · exact absurd same apart
        · have sameId : assertionId id letter.toString = assertionId id own.toString := by rw [same]
          exact Or.inl ⟨target, (assertionId_inj.mp sameId).2.symm⟩

/-- Edges that target a requirement without assertions are kept. -/
theorem target_iff (splits : graph.SplitsEdge edge copy) {id : String}
    (isRequirement : graph.isRequirement id = true)
    (bare : ∀ letter, ¬ graph.HasAssertion id letter)
    : copy.target = id ↔ edge.target = id := by
  cases splits with
  | same _ _ target => rw [target]
  | @split letter _ _ target _ _ has =>
      refine iff_of_false (fun same => ?_) (fun same => bare letter (same ▸ has))
      exact has.not_isRequirement (target ▸ same.symm ▸ isRequirement)

end SplitsEdge

-----------------------------------------------------------------------------------------
-- Graphs that are split
-----------------------------------------------------------------------------------------

namespace Splits

/-- What edges and their copies have in common, if they may cover, some edge has exactly if some
copy has. -/
theorem exists_iff (splits : graph.Splits other) {P Q : Edge → Prop}
    (covers : ∀ edge, P edge → edge.kind.covers = true)
    (coversCopy : ∀ copy, Q copy → copy.kind.covers = true)
    (common : ∀ edge copy, graph.SplitsEdge edge copy → (Q copy ↔ P edge))
    : (∃ copy ∈ other.edges, Q copy) ↔ ∃ edge ∈ graph.edges, P edge := by
  constructor
  · rintro ⟨copy, member, holds⟩
    obtain ⟨edge, there, same⟩ := splits.back copy member (coversCopy copy holds)
    exact ⟨edge, there, (common edge copy same).mp holds⟩
  · rintro ⟨edge, member, holds⟩
    obtain ⟨copy, there, same⟩ := splits.forth edge member (covers edge holds)
    exact ⟨copy, there, (common edge copy same).mpr holds⟩

theorem cycles_eq (splits : graph.Splits other) : other.cycles = graph.cycles := by
  have covers {edge : Edge} (kind : edge.kind = .implements) : edge.kind.covers = true := by
    rw [kind]
    rfl
  refine cycles_congr (fun source target => ?_)
  rw [Leads, Leads, splits.roles.isRequirement_iff, splits.roles.isRequirement_iff]
  refine and_congr_right (fun _ => and_congr_right (fun isRequirement => ?_))
  refine splits.exists_iff (fun _ holds => covers holds.1) (fun _ holds => covers holds.1) ?_
  intro edge copy same
  have belongs := splits.roles.belongs_iff.trans (same.belongs_iff isRequirement)
  rw [same.kind_eq, same.source_eq]
  exact and_congr_right (fun _ => and_congr_right (fun _ => belongs))

/-- What edges and their copies have in common, the evidence of both graphs has in common. -/
theorem exists_evidence_iff (splits : graph.Splits other) {P : Edge → Prop}
    (common : ∀ edge copy, graph.SplitsEdge edge copy → (P copy ↔ P edge))
    : (∃ copy ∈ other.edges, other.Evidence copy ∧ P copy)
      ↔ ∃ edge ∈ graph.edges, graph.Evidence edge ∧ P edge := by
  have covers {any : Graph} {edge : Edge} (evidence : any.Evidence edge)
      : edge.kind.covers = true := by
    rcases evidence.1 with kind | kind <;> rw [kind] <;> rfl
  refine splits.exists_iff (fun _ holds => covers holds.1) (fun _ holds => covers holds.1) ?_
  intro edge copy same
  exact and_congr ((splits.roles.evidence_iff splits.cycles_eq).trans same.evidence_iff)
    (common edge copy same)

theorem coversLetter_iff (splits : graph.Splits other) {id : String} {letter : Char}
    (has : graph.HasAssertion id letter)
    : other.CoversLetter id letter.toString ↔ graph.CoversLetter id letter.toString :=
  splits.exists_evidence_iff (fun _ _ same => same.pointsAt_iff has)

theorem coversWhole_iff (splits : graph.Splits other) {id : String}
    (isRequirement : graph.isRequirement id = true)
    (bare : ∀ letter, ¬ graph.HasAssertion id letter)
    : other.CoversWhole id ↔ graph.CoversWhole id :=
  splits.exists_evidence_iff (fun _ _ same => same.target_iff isRequirement bare)

end Splits

-----------------------------------------------------------------------------------------
-- Evidence that nodes record
-----------------------------------------------------------------------------------------

theorem Attached.mem_evidenceAt_iff (attached : graph.Attached) {id : String}
    (present : graph.contains id = true) {letters : List String}
    : letters ∈ graph.evidenceAt id
      ↔ ∃ edge ∈ graph.edges, graph.Evidence edge ∧ edge.target = id ∧ edge.letters = letters := by
  simp only [evidenceAt, List.mem_map, List.mem_filter, attached.mem_incoming_iff present,
    counts_iff]
  refine exists_congr (fun edge => ?_)
  tauto

theorem Attached.evidenceAt_ne_nil_iff (attached : graph.Attached) {id : String}
    (present : graph.contains id = true)
    : graph.evidenceAt id ≠ [] ↔ graph.CoversWhole id := by
  constructor
  · intro some
    obtain ⟨letters, listed⟩ := List.exists_mem_of_ne_nil _ some
    obtain ⟨edge, member, evidence, target, -⟩ := (attached.mem_evidenceAt_iff present).mp listed
    exact ⟨edge, member, evidence, target⟩
  · rintro ⟨edge, member, evidence, target⟩
    exact List.ne_nil_of_mem ((attached.mem_evidenceAt_iff present).mpr
      ⟨edge, member, evidence, target, rfl⟩)

/-- The mark of an assertion is covered exactly if its letter is. -/
theorem Attached.isMarkCovered_iff (attached : graph.Attached) {id : String} {letter : Char}
    (has : graph.HasAssertion id letter)
    : isMarkCovered graph.evidenceAt id
          (assertionId id letter.toString, some letter.toString) = true
      ↔ graph.CoversLetter id letter.toString := by
  obtain ⟨⟨node, listing, -⟩, ⟨assertion, found, -⟩⟩ := has
  have present := contains_iff.mpr ⟨node, listing⟩
  have presentAssertion := contains_iff.mpr ⟨assertion, found⟩
  rw [isMarkCovered, Bool.or_eq_true, decide_eq_true_eq,
    attached.evidenceAt_ne_nil_iff presentAssertion, List.any_eq_true]
  simp only [attached.mem_evidenceAt_iff present, Option.getD_some, List.contains_iff_mem]
  constructor
  · rintro (⟨edge, member, evidence, target⟩ | ⟨_, ⟨edge, member, evidence, target, rfl⟩, named⟩)
    · exact ⟨edge, member, evidence, Or.inl target⟩
    · exact ⟨edge, member, evidence, Or.inr ⟨target, named⟩⟩
  · rintro ⟨edge, member, evidence, target | ⟨target, named⟩⟩
    · exact Or.inl ⟨edge, member, evidence, target⟩
    · exact Or.inr ⟨edge.letters, ⟨edge, member, evidence, target, rfl⟩, named⟩

-----------------------------------------------------------------------------------------
-- The letters of requirements
-----------------------------------------------------------------------------------------

section Assembled

variable {scheme : Scheme} {files : List ParsedFile}

theorem HasAssertion.mem_marks {id : String} {letter : Char} (has : graph.HasAssertion id letter)
    : (assertionId id letter.toString, some letter.toString) ∈ graph.marks id := by
  obtain ⟨⟨node, listing, -, listed⟩, ⟨assertion, found, role⟩⟩ := has
  have label : assertion.text? FieldKey.label = some letter.toString := congrArg Role.letter? role
  have own : assertion ∈ graph.assertionsOf id := by
    rw [assertionsOf, listing]
    exact List.mem_filterMap.mpr ⟨_, listed, found⟩
  rw [← id_of_node? found, ← label]
  exact List.mem_map_of_mem own

/-- The marks with letters are those of the assertions of a requirement. Witness: its letters are
single characters, so the identifier of an assertion tells them. -/
theorem hasAssertion_of_mem_marks {id : String}
    (isRequirement : (assemble scheme files).isRequirement id = true)
    {mark : String × Option String} (member : mark ∈ (assemble scheme files).marks id)
    (labelled : mark.2.isSome = true)
    : ∃ letter,
        (assemble scheme files).HasAssertion id letter
        ∧ mark = (assertionId id letter.toString, some letter.toString) := by
  obtain ⟨node, found, kind⟩ := isRequirement_iff.mp isRequirement
  obtain ⟨assertion, own, rfl⟩ := List.mem_map.mp member
  rw [assertionsOf, found] at own
  obtain ⟨text, listed, there⟩ := List.mem_filterMap.mp own
  obtain ⟨letter, label⟩ := Option.isSome_iff_exists.mp labelled
  obtain ⟨c, rfl⟩ : ∃ c : Char, text = c.toString := by
    obtain ⟨record, -, declared⟩ := exists_accepted_of_bare? (bare?_of_node? found)
    obtain ⟨requirement, -, same⟩ := Assembly.requirement_of_mem_nodesOf declared kind
    have letters : node.list FieldKey.assertions = node.bare.list FieldKey.assertions := rfl
    rw [letters, same, Assembly.letters_requirementNode] at listed
    obtain ⟨written, -, rfl⟩ := List.mem_map.mp listed
    exact ⟨written.letter, rfl⟩
  obtain ⟨requirement, own, same, has⟩ :=
    ownsAssertions_assemble scheme files _ assertion there (kind_of_letter there label)
  obtain ⟨rfl, rfl⟩ := assertionId_inj.mp same
  obtain ⟨twin, again, role⟩ := has.found
  obtain rfl := Option.some.inj (there.symm.trans again)
  exact ⟨c, has, Prod.ext (id_of_node? there) (congrArg Role.letter? role)⟩

/-- References that are split leave the report as it is. -/
theorem coverage_eq_of_splits (positive : scheme.idDigits ≠ 0) {others : List ParsedFile}
    (split : List.Forall₂ ((assemble scheme files).SplitsFile scheme) files others)
    : (assemble scheme others).coverage = (assemble scheme files).coverage := by
  have splits := splits_assemble positive split
  have attached := attached_assemble scheme files
  have attachedOther := attached_assemble scheme others
  refine splits.roles.coverage_eq splits.cycles_eq (fun id isRequirement => ?_)
  refine coverageBy_congr (fun mark member labelled => ?_) (fun none => ?_)
  · obtain ⟨letter, has, rfl⟩ := hasAssertion_of_mem_marks isRequirement member labelled
    rw [attached.isMarkCovered_iff has,
      attachedOther.isMarkCovered_iff (splits.roles.hasAssertion has), splits.coversLetter_iff has]
  · have bare (letter : Char) : ¬ (assemble scheme files).HasAssertion id letter := by
      intro has
      have listed
          : letter.toString ∈ ((assemble scheme files).marks id).filterMap Prod.snd :=
        List.mem_filterMap.mpr ⟨_, has.mem_marks, rfl⟩
      rw [none] at listed
      exact List.not_mem_nil listed
    obtain ⟨node, found, -⟩ := isRequirement_iff.mp isRequirement
    obtain ⟨copy, there, -⟩ := splits.roles.exists_node found
    rw [attached.evidenceAt_ne_nil_iff (contains_iff.mpr ⟨node, found⟩),
      attachedOther.evidenceAt_ne_nil_iff (contains_iff.mpr ⟨copy, there⟩),
      splits.coversWhole_iff isRequirement bare]

end Assembled

/-- Expansion is faithful. A reference whose target names several letters becomes an edge for each,
in order, to the bare identifier in front of them, which is found within the target; any other
reference is one edge to its target as it is written. Where all letters are those of assertions,
references to one letter each in place of it make the same report, the coverage and the covered
letters of every requirement and the cycles. -/
theorem expansion_faithful {config : Config} {limit : Nat} {scheme : Scheme}
    (compiled : config.compileWithin limit = .ok scheme)
    : (∀ reference : PendingReference,
        (∀ parts, reference.NamesSeveral scheme parts →
          ∃ base,
            Identifier.Heads scheme reference.target base parts
            ∧ reference.edges scheme
              = parts.letters.map (fun letter =>
                  ⟨reference.source, base, reference.kind, [letter.toString], reference.line⟩))
        ∧ ((∀ parts, ¬ reference.NamesSeveral scheme parts) →
            reference.edges scheme
            = [⟨reference.source, reference.target, reference.kind, [], reference.line⟩]))
      ∧ ∀ files others, List.Forall₂ ((assemble scheme files).SplitsFile scheme) files others →
          (assemble scheme others).coverage = (assemble scheme files).coverage := by
  have positive := Config.idDigits_of_compile compiled
  exact ⟨PendingReference.edges_of_parts positive,
    fun _ _ split => coverage_eq_of_splits positive split⟩

/-- A requirement with two assertions, and code that implements what is listed. -/
def implementedLogin (targets : List Target) : List ParsedFile :=
  let login : Requirement :=
    { id := "REQ-p00001"
      title := "Login"
      level := some "PRD"
      status := none
      hasMetadata := true
      implementsTargets := []
      refinesTargets := []
      addressesTargets := []
      assertions := [⟨'A', "Ask for a name.", 3⟩, ⟨'B', "Ask for a password.", 4⟩]
      body := "A. Ask for a name.\nB. Ask for a password."
      storedHash := none
      endMarker := "Login"
      endLine := 5 }
  [⟨"login.md", 5, [⟨1, 5, "", .requirement login⟩], []⟩,
    ⟨"login.rs", 1, [⟨1, 1, "", .codeReference ⟨targets, none⟩⟩], []⟩]

/-- Witness: code that implements both assertions may name them together or one by one. -/
theorem expansion_faithful_implementedLogin
    : let coded (target : String) : PendingReference :=
        ⟨"code:login.rs:1", target, .implements, 1⟩
      let together := implementedLogin [⟨"REQ-p00001-A-B", 1⟩]
      let apart := implementedLogin [⟨"REQ-p00001-A", 1⟩, ⟨"REQ-p00001-B", 1⟩]
      ({} : Config).compile = .ok Config.defaultScheme
      ∧ (coded "REQ-p00001-A-B").edges Config.defaultScheme
        = [⟨"code:login.rs:1", "REQ-p00001", .implements, ["A"], 1⟩,
            ⟨"code:login.rs:1", "REQ-p00001", .implements, ["B"], 1⟩]
      ∧ (coded "REQ-p00001-A").edges Config.defaultScheme
        = [⟨"code:login.rs:1", "REQ-p00001-A", .implements, [], 1⟩]
      ∧ (assemble Config.defaultScheme together).edges.toList.map Edge.target
        ≠ (assemble Config.defaultScheme apart).edges.toList.map Edge.target
      ∧ (assemble Config.defaultScheme apart).coverage
        = (assemble Config.defaultScheme together).coverage := by
  intro coded together apart
  have faithful := expansion_faithful Config.compile_default
  let parts : Identifier := ⟨'p', 1, ['A', 'B']⟩
  have parsed : Config.defaultScheme.parseId? "REQ-p00001-A-B" = some parts := by
    decide +kernel
  have single
      : Config.defaultScheme.parseId? "REQ-p00001-A" = some ⟨'p', 1, ['A']⟩ := by
    decide +kernel
  have written : "REQ-p00001-A-B" = "REQ-p00001" ++ Identifier.suffix parts.letters := by
    decide +kernel
  have several : (coded "REQ-p00001-A-B").NamesSeveral Config.defaultScheme parts :=
    ⟨EdgeKind.noConfusion, parsed, Nat.le_refl 2⟩
  obtain ⟨base, heads, edges⟩ := (faithful.1 _).1 parts several
  obtain rfl : base = "REQ-p00001" :=
    (String.append_left_inj _).mp (heads.written.symm.trans written)
  have whole := (faithful.1 (coded "REQ-p00001-A")).2 (fun others names => by
    have same := names.parsed.symm.trans single
    have more := names.several
    rw [Option.some.inj same] at more
    exact absurd more (by decide))
  have differ
      : (assemble Config.defaultScheme together).edges.toList.map Edge.target
        ≠ (assemble Config.defaultScheme apart).edges.toList.map Edge.target := by
    decide +kernel
  have spreads
      : (assemble Config.defaultScheme together).Spreads Config.defaultScheme "REQ-p00001-A-B"
          "REQ-p00001" parts := by
    have first
        : ((assemble Config.defaultScheme together).node?
            (assertionId "REQ-p00001" 'A'.toString)).map Node.kind = some .assertion := by
      decide +kernel
    have second
        : ((assemble Config.defaultScheme together).node?
            (assertionId "REQ-p00001" 'B'.toString)).map Node.kind = some .assertion := by
      decide +kernel
    refine ⟨parsed, Nat.le_refl 2, written, by decide +kernel, ?_⟩
    rw [List.forall_mem_cons, List.forall_mem_singleton]
    exact ⟨Option.map_eq_some_iff.mp first, Option.map_eq_some_iff.mp second⟩
  have split
      : List.Forall₂ ((assemble Config.defaultScheme together).SplitsFile Config.defaultScheme)
          together apart := by
    refine .cons ⟨rfl, .cons ⟨rfl, rfl, .same _⟩ .nil⟩ (.cons ⟨rfl, .cons ⟨rfl, rfl, ?_⟩ .nil⟩ .nil)
    exact .codeReference (.split spreads .nil)
  have report := faithful.2 together apart split
  exact ⟨Config.compile_default, edges, whole, differ, report⟩

end Graph

end Traceability
