import Traceability.Proofs.Config.Levels
import Traceability.Proofs.Rule.Findings
import Traceability.Proofs.Rule.Format
import Traceability.Proofs.Rule.Metadata
import Traceability.Run

/-! Which levels and statuses a requirement may name.
A level or status is known exactly if it spells a configured name. A name that is configured with a
blank at an end is spelled by nothing, not even by itself.
-/

namespace Traceability

open Rule Rule.Metadata Text

-----------------------------------------------------------------------------------------
-- What is reported of a requirement
-----------------------------------------------------------------------------------------

section Reported

variable {scheme : Scheme} {graph : Graph} {coverage : CoverageReport} {node : Node}

theorem Rule.findingsAbout_metadata (member : node ∈ graph.requirements)
    : findingsAbout (metadata.check ⟨graph, scheme, coverage⟩) node.id
      = Metadata.findings scheme node :=
  findingsAbout_requirements (fun _ _ found => (mem_findings_iff.mp found).nodeId_eq) member

/-- A level that is known is not reported as unknown. -/
theorem Rule.Metadata.unknownLevelFinding_not_mem {text : String}
    (declared : node.text? FieldKey.level = some text) {level : Level}
    (known : scheme.levelByName? text = some level) (name : String)
    : unknownLevelFinding node name ∉ Metadata.findings scheme node := by
  intro found
  obtain ⟨-, other, filled, unknown⟩ :=
    exists_unknownLevel_reported_iff.mp ⟨name, mem_findings_iff.mp found⟩
  obtain ⟨there, -⟩ := filled?_eq_some_iff.mp filled
  obtain rfl := Option.some.inj (declared.symm.trans there)
  exact absurd (known.symm.trans unknown) (by simp)

theorem Rule.Metadata.unknownStatusFinding_not_mem {text : String}
    (declared : node.text? FieldKey.status = some text)
    (known : scheme.isKnownStatus text = true) (status : String)
    : unknownStatusFinding node status ∉ Metadata.findings scheme node := by
  intro found
  obtain ⟨-, other, filled, unknown⟩ :=
    exists_unknownStatus_reported_iff.mp ⟨status, mem_findings_iff.mp found⟩
  obtain ⟨there, -⟩ := filled?_eq_some_iff.mp filled
  obtain rfl := Option.some.inj (declared.symm.trans there)
  exact unknown known

end Reported

-----------------------------------------------------------------------------------------
-- Configured names
-----------------------------------------------------------------------------------------

namespace Config

variable {config : Config} {limit : Nat} {scheme : Scheme}

theorem exists_level_of_compile (compiled : config.compileWithin limit = .ok scheme)
    {spec : LevelSpec} (member : spec ∈ config.levels)
    : ∃ level ∈ scheme.levels, level.name = spec.name := by
  obtain ⟨level, there, rfl⟩ :=
    List.mem_map.mp ((levels_perm_of_compile compiled).mem_iff.mpr member)
  exact ⟨level, there, rfl⟩

theorem levelByName?_eq_none_iff_of_compile (compiled : config.compileWithin limit = .ok scheme)
    {text : String}
    : scheme.levelByName? text = none ↔ ∀ spec ∈ config.levels, ¬ Spells text spec.name := by
  rw [levelByName?_eq_none_iff]
  constructor
  · intro none spec member
    obtain ⟨level, there, same⟩ := exists_level_of_compile compiled member
    exact same ▸ none level there
  · intro none level member
    have written := (levels_perm_of_compile compiled).mem_iff.mp (List.mem_map_of_mem member)
    exact none level.spec written

theorem isKnownStatus_iff_of_compile (compiled : config.compileWithin limit = .ok scheme)
    {status : String}
    : scheme.isKnownStatus status = true ↔ ∃ known ∈ config.statuses, Spells status known := by
  rw [isKnownStatus_iff, (compilesTo_of_compile compiled).statuses]

/-- The levels of a compiled configuration are those that are written, ascending by rank, each with
a code and a name of its own. A level is found by its code, and by its name if no blank is at an end
of the name. Otherwise no text finds it. Likewise a status is known if it is configured without
blanks at its ends. So a requirement that declares such a level and such a status is not told that
they are unknown, and in general it is told so exactly if what it declares spells no configured
name. -/
theorem names_exact_of_compile (compiled : config.compileWithin limit = .ok scheme)
    : (scheme.levels.map Level.spec).Perm config.levels
      ∧ scheme.levels.Pairwise (fun a b =>
          a.rank < b.rank ∧ a.code ≠ b.code ∧ sameIgnoringCase a.name b.name = false)
      ∧ (∀ level ∈ scheme.levels,
          scheme.levelByCode? level.code = some level
          ∧ (Trimmed level.name.toList → scheme.levelByName? level.name = some level)
          ∧ (¬ Trimmed level.name.toList → ∀ text, scheme.levelByName? text ≠ some level))
      ∧ (∀ status ∈ config.statuses,
          Trimmed status.toList → scheme.isKnownStatus status = true)
      ∧ (∀ status,
          scheme.isKnownStatus status = true
            ↔ ∃ known ∈ config.statuses, Trimmed known.toList ∧ Spells status known)
      ∧ ∀ graph coverage, ∀ node ∈ graph.requirements,
          let about := findingsAbout (metadata.check ⟨graph, scheme, coverage⟩) node.id
          (∀ spec ∈ config.levels, Trimmed spec.name.toList →
            node.text? FieldKey.level = some spec.name →
              ∀ name, unknownLevelFinding node name ∉ about)
          ∧ (∀ known ∈ config.statuses, Trimmed known.toList →
            node.text? FieldKey.status = some known →
              ∀ status, unknownStatusFinding node status ∉ about)
          ∧ ((∃ name, unknownLevelFinding node name ∈ about)
            ↔ node.flag FieldKey.hasMetadata = true
              ∧ ∃ name,
                  filled? node FieldKey.level = some name
                  ∧ ∀ spec ∈ config.levels, ¬ Spells name spec.name)
          ∧ ((∃ status, unknownStatusFinding node status ∈ about)
            ↔ node.flag FieldKey.hasMetadata = true
              ∧ ∃ status,
                  filled? node FieldKey.status = some status
                  ∧ ∀ known ∈ config.statuses, ¬ Spells status known) := by
  have byName {level : Level} (member : level ∈ scheme.levels)
      (trimmed : Trimmed level.name.toList)
      : scheme.levelByName? level.name = some level :=
    (levelByName?_eq_some_iff compiled member).mpr (spells_self_iff.mpr trimmed)
  have known {status : String} (member : status ∈ config.statuses)
      (trimmed : Trimmed status.toList)
      : scheme.isKnownStatus status = true :=
    (isKnownStatus_iff_of_compile compiled).mpr ⟨status, member, spells_self_iff.mpr trimmed⟩
  refine ⟨levels_perm_of_compile compiled, levels_pairwise_of_compile compiled,
    fun level member => ⟨levelByCode?_of_compile compiled member, byName member, ?_⟩,
    fun status => known, fun status => ?_, fun graph coverage node member => ?_⟩
  · intro padded text found
    exact padded (trimmed_of_spells ((levelByName?_eq_some_iff compiled member).mp found))
  · rw [isKnownStatus_iff_of_compile compiled]
    refine exists_congr (fun other => and_congr_right (fun _ => ?_))
    exact ⟨fun spelled => ⟨trimmed_of_spells spelled, spelled⟩, And.right⟩
  · intro about
    rw [show about = Metadata.findings scheme node from findingsAbout_metadata member]
    refine ⟨fun spec written trimmed declared => ?_, fun status written trimmed declared => ?_, ?_,
      ?_⟩
    · obtain ⟨level, there, same⟩ := exists_level_of_compile compiled written
      rw [← same] at trimmed declared
      exact unknownLevelFinding_not_mem declared (byName there trimmed)
    · exact unknownStatusFinding_not_mem declared (known written trimmed)
    · simp only [mem_findings_iff, exists_unknownLevel_reported_iff,
        levelByName?_eq_none_iff_of_compile compiled]
    · simp only [mem_findings_iff, exists_unknownStatus_reported_iff,
        isKnownStatus_iff_of_compile compiled, not_exists, not_and]

/-- A level and a status whose names have a blank at one end. -/
def paddedNames : Config where
  levels := [⟨"OPS", "o", 2⟩, ⟨" PRD", "p", 1⟩]
  statuses := ["Active", "Draft "]

def paddedScheme : Scheme :=
  { defaultScheme with
    levels := [⟨" PRD", 'p', 1⟩, ⟨"OPS", 'o', 2⟩]
    statuses := ["Active", "Draft "] }

theorem compile_paddedNames : paddedNames.compile = .ok paddedScheme := by
  rfl

/-- Two requirements that declare levels and statuses as they are configured. -/
def declaredAsConfigured : SourceSet where
  files := [
    ⟨"host.md", "# REQ-o00001: Host\n**Level**: OPS | **Status**: Active\n*End* *Host*\n"⟩,
    ⟨"login.md", "# REQ-p00001: Login\n**Level**:  PRD | **Status**: Draft \n*End* *Login*\n"⟩]

theorem names_exact_of_compile_paddedNames
    : paddedNames.compile = .ok paddedScheme
      ∧ paddedScheme.levelByName? "OPS" = some ⟨"OPS", 'o', 2⟩
      ∧ (∀ text, paddedScheme.levelByName? text ≠ some ⟨" PRD", 'p', 1⟩)
      ∧ let graph := Graph.ofSources paddedScheme declaredAsConfigured
        ∃ node ∈ graph.requirements,
          node.text? FieldKey.level = some "OPS"
          ∧ node.text? FieldKey.status = some "Active"
          ∧ let findings := metadata.check ⟨graph, paddedScheme, graph.coverage⟩
            (∀ name, unknownLevelFinding node name ∉ findingsAbout findings node.id)
            ∧ ∀ status, unknownStatusFinding node status ∉ findingsAbout findings node.id := by
  obtain ⟨-, -, found, -, -, about⟩ := names_exact_of_compile compile_paddedNames
  have ops := (found ⟨"OPS", 'o', 2⟩ (by decide)).2.1
  have prd := (found ⟨" PRD", 'p', 1⟩ (by decide)).2.2
  refine ⟨compile_paddedNames, ops (by decide), prd (by decide), ?_⟩
  intro graph
  have evaluated
      : ∃ node ∈ graph.requirements,
          node.text? FieldKey.level = some "OPS"
          ∧ node.text? FieldKey.status = some "Active" := by
    decide +kernel
  obtain ⟨node, member, level, status⟩ := evaluated
  obtain ⟨knownLevel, knownStatus, -⟩ := about graph graph.coverage node member
  exact ⟨node, member, level, status,
    knownLevel ⟨"OPS", "o", 2⟩ (by decide) (by decide) level,
    knownStatus "Active" (by decide) (by decide) status⟩

/-- A level and a status that are configured are not known, and a requirement that declares them is
told so. -/
theorem not_recognised_paddedNames
    : ∃ scheme, paddedNames.compile = .ok scheme
      ∧ ∃ level ∈ scheme.levels,
          scheme.levelByName? level.name = none
          ∧ ∃ status ∈ paddedNames.statuses,
              scheme.isKnownStatus status = false
              ∧ let graph := Graph.ofSources scheme declaredAsConfigured
                ∃ node ∈ graph.requirements,
                  unknownLevelFinding node "PRD"
                      ∈ metadata.check ⟨graph, scheme, graph.coverage⟩
                  ∧ unknownStatusFinding node "Draft"
                      ∈ metadata.check ⟨graph, scheme, graph.coverage⟩ := by
  refine ⟨paddedScheme, compile_paddedNames, ?_⟩
  decide +kernel

end Config

end Traceability
