import Traceability.Proofs.Config.Compile
import Traceability.Proofs.Graph.References
import Traceability.Proofs.Graph.Restriction
import Traceability.Proofs.Rule.Structure

/-! What a clean hierarchy says about cycles.
Without a table of permitted parents no requirement has a parent of a higher rank, so along the
IMPLEMENTS edges of a clean hierarchy ranks never grow. On a cycle they stay the same, and if a
parent must be of a lower rank there is no cycle at all.
-/

namespace Traceability

open Relation

-----------------------------------------------------------------------------------------
-- Levels of requirements
-----------------------------------------------------------------------------------------

/-- A level that a requirement has is one of the scheme. -/
theorem Scheme.mem_levels_of_levelOf? {scheme : Scheme} {node : Node} {level : Level}
    (known : scheme.levelOf? node = some level)
    : level ∈ scheme.levels := by
  rw [levelOf?, Option.or_eq_some_iff] at known
  rcases known with declared | ⟨-, encoded⟩
  · obtain ⟨name, -, found⟩ := Option.bind_eq_some_iff.mp declared
    exact List.mem_of_find?_eq_some found
  · obtain ⟨parts, -, found⟩ := Option.bind_eq_some_iff.mp encoded
    exact List.mem_of_find?_eq_some found

/-- Without a table a parent has at most the rank of the child, and less if the same level is
not allowed. -/
theorem Scheme.rank_le_of_permitsParent {scheme : Scheme} (unlisted : scheme.allowedParents = none)
    {child parent : Level} (permitted : scheme.permitsParent child parent = true)
    : parent.rank ≤ child.rank
      ∧ (scheme.allowSameLevel = false → parent.rank < child.rank) := by
  rw [permitsParent, unlisted] at permitted
  simp only [Bool.or_eq_true, Bool.and_eq_true, decide_eq_true_eq, beq_iff_eq] at permitted
  rcases permitted with lower | ⟨allowed, same⟩
  · exact ⟨Nat.le_of_lt lower, fun _ => lower⟩
  · exact ⟨Nat.le_of_eq same, fun forbidden => absurd (allowed.symm.trans forbidden) (by decide)⟩

namespace Graph

/-- The level of the node with this identifier. -/
def levelAt? (scheme : Scheme) (graph : Graph) (id : String) : Option Level :=
  (graph.node? id).bind scheme.levelOf?

/-- The rank of the node with this identifier, or zero if it has no level. -/
def rankAt (scheme : Scheme) (graph : Graph) (id : String) : Nat :=
  ((graph.levelAt? scheme id).map Level.rank).getD 0

variable {scheme : Scheme} {graph : Graph} {source target : String}

/-- One step along an IMPLEMENTS edge goes to a permitted parent. -/
theorem Leads.permitted (leads : graph.Leads source target) (wired : graph.Wired)
    {coverage : CoverageReport}
    (clean : Rule.hierarchy.check { graph, scheme, coverage } = []) {level parentLevel : Level}
    (known : graph.levelAt? scheme source = some level)
    (parentKnown : graph.levelAt? scheme target = some parentLevel)
    : scheme.permitsParent level parentLevel = true := by
  obtain ⟨from', there, edge, present, kind, rfl, belongs⟩ := leads
  obtain ⟨child, childFound, childKind⟩ := isRequirement_iff.mp from'
  have own := id_of_node? childFound
  have member : child ∈ graph.requirements :=
    mem_nodesOfKind_iff.mpr ⟨own.symm ▸ childFound, childKind⟩
  obtain ⟨parent, owned, rfl⟩ := (owner?_id_iff there).mpr belongs
  have silent : Rule.Silent { graph, scheme, coverage } Rule.hierarchy := by
    rw [Rule.Silent, clean]
    exact List.forall_mem_nil _
  rw [levelAt?, childFound, Option.bind_some] at known
  rw [levelAt?, node?_of_owner? owned, Option.bind_some] at parentKnown
  exact (Rule.silent_hierarchy_iff wired).mp silent child member edge present
    own.symm (by rw [kind]; rfl) parent owned level known parentLevel parentKnown

/-- What is assumed of a graph: its hierarchy is clean, and every requirement has a level. -/
structure CleanLevels (scheme : Scheme) (graph : Graph) : Prop where
  wired : graph.Wired
  clean : ∃ coverage, Rule.hierarchy.check { graph, scheme, coverage } = []
  unlisted : scheme.allowedParents = none
  known : ∀ node ∈ graph.requirements, ∃ level, scheme.levelOf? node = some level

theorem CleanLevels.exists_level (levels : graph.CleanLevels scheme) {id : String}
    (requirement : graph.isRequirement id = true)
    : ∃ level ∈ scheme.levels, graph.levelAt? scheme id = some level := by
  obtain ⟨node, found, kind⟩ := isRequirement_iff.mp requirement
  have same := id_of_node? found
  obtain ⟨level, known⟩ :=
    levels.known node (mem_nodesOfKind_iff.mpr ⟨same.symm ▸ found, kind⟩)
  refine ⟨level, Scheme.mem_levels_of_levelOf? known, ?_⟩
  rw [levelAt?, found, Option.bind_some, known]

/-- Ranks do not grow along one step, and shrink if the same level is not allowed. -/
theorem CleanLevels.rankAt_le_of_leads (levels : graph.CleanLevels scheme)
    (leads : graph.Leads source target)
    : graph.rankAt scheme target ≤ graph.rankAt scheme source
      ∧ (scheme.allowSameLevel = false →
          graph.rankAt scheme target < graph.rankAt scheme source) := by
  obtain ⟨coverage, clean⟩ := levels.clean
  obtain ⟨level, -, known⟩ := levels.exists_level leads.requirements.1
  obtain ⟨parentLevel, -, parentKnown⟩ := levels.exists_level leads.requirements.2
  have permitted := leads.permitted levels.wired clean known parentKnown
  rw [rankAt, rankAt, known, parentKnown]
  exact Scheme.rank_le_of_permitsParent levels.unlisted permitted

/-- Nor do they grow along any number of steps. -/
theorem CleanLevels.rankAt_le_of_transGen (levels : graph.CleanLevels scheme)
    (chain : TransGen graph.Leads source target)
    : graph.rankAt scheme target ≤ graph.rankAt scheme source
      ∧ (scheme.allowSameLevel = false →
          graph.rankAt scheme target < graph.rankAt scheme source) := by
  induction chain with
  | single leads => exact levels.rankAt_le_of_leads leads
  | tail _ leads ih =>
      have step := levels.rankAt_le_of_leads leads
      exact ⟨step.1.trans ih.1, fun forbidden => (step.2 forbidden).trans (ih.2 forbidden)⟩

/-- In a clean hierarchy all requirements of a cycle have one level, and if a parent must stand
above its children there is no cycle. -/
theorem cycles_of_clean_hierarchy {config : Config} {limit : Nat} {scheme : Scheme}
    (compiled : config.compileWithin limit = .ok scheme)
    (unlisted : config.hierarchy.allowedParents = none)
    {files : List ParsedFile} {coverage : CoverageReport}
    (known
      : ∀ node ∈ (assemble scheme files).requirements, ∃ level,
          scheme.levelOf? node = some level)
    (clean
      : Rule.hierarchy.check { graph := assemble scheme files, scheme, coverage } = [])
    : (∀ cycle ∈ (assemble scheme files).cycles, ∃ level, ∀ id ∈ cycle,
          ∃ node, (assemble scheme files).node? id = some node
            ∧ scheme.levelOf? node = some level)
      ∧ (config.hierarchy.allowSameLevel = false → (assemble scheme files).cycles = []) := by
  have compiles := Config.compilesTo_of_compile compiled
  have levels : (assemble scheme files).CleanLevels scheme := {
    wired := (attached_assemble scheme files).wired (fun _ => contains_source_assemble)
    clean := ⟨coverage, clean⟩
    unlisted := compiles.allowedParents unlisted
    known
  }
  refine ⟨fun cycle listed => ?_, fun forbidden => ?_⟩
  · have isCycle := mem_cycles_iff.mp listed
    obtain ⟨first, here⟩ := isCycle.exists_mem
    obtain ⟨level, own, firstKnown⟩ :=
      levels.exists_level (isCycle.onOneCycle here).isRequirement
    refine ⟨level, fun id member => ?_⟩
    have on := (isCycle.whole first here id).mp member
    obtain ⟨other, own', otherKnown⟩ := levels.exists_level on.symm.isRequirement
    have same : level.rank = other.rank := by
      have forth := (levels.rankAt_le_of_transGen on.1).1
      have back := (levels.rankAt_le_of_transGen on.2).1
      rw [rankAt, rankAt, firstKnown, otherKnown] at forth back
      exact Nat.le_antisymm back forth
    rw [← Config.level_eq_of_rank_eq compiled own own' same] at otherKnown
    exact Option.bind_eq_some_iff.mp otherKnown
  · rw [cycles_eq_nil_iff]
    intro id chain
    have below := (levels.rankAt_le_of_transGen chain).2 (compiles.allowSameLevel.trans forbidden)
    exact absurd below (lt_irrefl _)

/-- Two requirements that implement each other. The identifier of the second tells its level. -/
def mutualFiles : List ParsedFile :=
  [Registry.standard.parseFile Config.defaultScheme "login.md"
      ("# REQ-p00001: Login\n**Level**: PRD | **Implements**: REQ-p00002-A\n*End* *Login*\n"),
    Registry.standard.parseFile Config.defaultScheme "form.md"
      ("# REQ-p00002: Form\n**Status**: Draft | **Implements**: REQ-p00001\nA. Ask.\n"
        ++ "*End* *Form*\n")]

theorem cycles_of_clean_hierarchy_mutualFiles
    : let graph := assemble Config.defaultScheme mutualFiles
      ({} : Config).compile = .ok Config.defaultScheme
      ∧ ({} : Config).hierarchy.allowedParents = none
      ∧ (∀ node ∈ graph.requirements, ∃ level,
          Config.defaultScheme.levelOf? node = some level)
      ∧ Rule.hierarchy.check
          { graph
            scheme := Config.defaultScheme
            coverage := { requirements := [], cycles := [] } } = []
      ∧ ∃ cycle ∈ graph.cycles,
          "REQ-p00001" ∈ cycle
          ∧ "REQ-p00002" ∈ cycle
          ∧ ∃ level, ∀ id ∈ cycle,
              ∃ node, graph.node? id = some node
                ∧ Config.defaultScheme.levelOf? node = some level := by
  intro graph
  have known : ∀ node ∈ graph.requirements, ∃ level,
      Config.defaultScheme.levelOf? node = some level := by
    simp only [← Option.isSome_iff_exists]
    decide +kernel
  have clean : Rule.hierarchy.check
      { graph, scheme := Config.defaultScheme, coverage := { requirements := [], cycles := [] } }
      = [] := by
    decide +kernel
  have steps
      : ∀ pair ∈ [("REQ-p00001", "REQ-p00002"), ("REQ-p00002", "REQ-p00001")],
          graph.isRequirement pair.1 = true
          ∧ graph.isRequirement pair.2 = true
          ∧ ∃ edge ∈ graph.edges.toList,
              edge.kind = .implements
              ∧ edge.source = pair.1
              ∧ graph.Belongs edge.target pair.2 := by
    decide +kernel
  simp only [Array.mem_toList_iff] at steps
  have onCycle : graph.OnOneCycle "REQ-p00001" "REQ-p00002" :=
    ⟨.single (steps _ List.mem_cons_self), .single (steps _ (List.mem_cons_of_mem _
      List.mem_cons_self))⟩
  obtain ⟨cycle, listed, login, form⟩ := listed_together_iff.mpr onCycle
  obtain ⟨oneLevel, -⟩ := cycles_of_clean_hierarchy Config.compile_default rfl known clean
  exact ⟨Config.compile_default, rfl, known, clean, cycle, listed, login, form,
    oneLevel cycle listed⟩

end Graph

end Traceability
