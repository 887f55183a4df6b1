import Traceability.Proofs.Config.Parents
import Traceability.Proofs.Rule.Levels
import Traceability.Proofs.Rule.Orphans

/-! Which parents are reported as forbidden.
The rule looks at the edges that leave a requirement and at the owners of their targets. What it
means is stated over the whole list of edges and over the hierarchy as it is configured: there is
one finding for each requirement that may not be a parent but is declared as one, however many
edges declare it.
-/

namespace Traceability

namespace Graph

/-- An edge of this kind declares a parent: it leaves the child and targets the parent or one of its
assertions. -/
def Declares (graph : Graph) (kind : EdgeKind) (child parent : String) : Prop :=
  ∃ edge ∈ graph.edges,
    edge.kind = kind
    ∧ (kind = .implements ∨ kind = .refines)
    ∧ edge.source = child
    ∧ graph.Belongs edge.target parent

instance (graph : Graph) (kind : EdgeKind) (child parent : String)
    : Decidable (graph.Declares kind child parent) :=
  decidable_of_iff (∃ edge ∈ graph.edges.toList,
      edge.kind = kind
      ∧ (kind = .implements ∨ kind = .refines)
      ∧ edge.source = child
      ∧ graph.Belongs edge.target parent)
    (by simp only [Array.mem_toList_iff, Declares])

/-- A requirement is declared as the parent of another one that may not have it as a parent. -/
structure Forbids (hierarchy : Hierarchy) (scheme : Scheme) (graph : Graph) (child parent : Node)
    : Prop where
  requirement : parent ∈ graph.requirements
  declared : ∃ kind, graph.Declares kind child.id parent.id
  levels
    : ∃ level parentLevel,
        scheme.levelOf? child = some level
        ∧ scheme.levelOf? parent = some parentLevel
        ∧ ¬ hierarchy.Permits level parentLevel

end Graph

namespace Rule

-----------------------------------------------------------------------------------------
-- Findings item by item
-----------------------------------------------------------------------------------------

/-- What a partial map yields stands item by item for the items for which it yields something. -/
theorem forall₂_filterMap {α β : Type} {f : α → Option β} {related : α → β → Prop}
    {items : List α} (step : ∀ item ∈ items, ∀ result, f item = some result → related item result)
    : List.Forall₂ related (items.filter (fun item => (f item).isSome)) (items.filterMap f) := by
  induction items with
  | nil => exact .nil
  | cons item rest ih =>
      have further := ih (fun other member => step other (List.mem_cons_of_mem item member))
      cases found : f item with
      | none => simpa [found] using further
      | some result =>
          have own := step item List.mem_cons_self result found
          simpa [found] using And.intro own further

namespace Hierarchy

-----------------------------------------------------------------------------------------
-- Findings about parents
-----------------------------------------------------------------------------------------

/-- The finding about a child and a parent with these levels. -/
def levelFinding (kind : EdgeKind) (child : Node) (level : Level) (parent : Node)
    (parentLevel : Level)
    : Finding :=
  { child.finding "hierarchy" .error
      (child.id ++ " (" ++ level.name ++ ") may not " ++ verb kind ++ " " ++ parent.id
        ++ " (" ++ parentLevel.name ++ ")") with
    related := [parent.source] }

/-- A finding reports a parent: it is an error about the child with both levels and with the kind of
an edge that declares the parent. -/
def Reports (scheme : Scheme) (graph : Graph) (child parent : Node) (finding : Finding) : Prop :=
  ∃ kind level parentLevel,
    graph.Declares kind child.id parent.id
    ∧ scheme.levelOf? child = some level
    ∧ scheme.levelOf? parent = some parentLevel
    ∧ finding = levelFinding kind child level parent parentLevel

theorem finding?_eq_some_iff {scheme : Scheme} {child parent : Node} {level : Level}
    {kind : EdgeKind} {finding : Finding}
    : finding? scheme child level kind parent = some finding
      ↔ ∃ parentLevel,
          scheme.levelOf? parent = some parentLevel
          ∧ ¬ scheme.permitsParent level parentLevel = true
          ∧ finding = levelFinding kind child level parent parentLevel := by
  rw [finding?]
  cases scheme.levelOf? parent with
  | none => simp
  | some parentLevel =>
      by_cases permitted : scheme.permitsParent level parentLevel = true
      · simp [permitted]
      · simp only [Option.bind_eq_bind, Option.bind_some, permitted, Bool.false_eq_true, if_false,
          Option.pure_def, Option.some.injEq, exists_eq_left', not_false_eq_true, true_and]
        exact eq_comm

/-- What the rule says of one requirement. -/
def reportOf (scheme : Scheme) (graph : Graph) (child : Node) : List Finding :=
  match scheme.levelOf? child with
  | none => []
  | some level =>
      (parents graph child).filterMap (fun (kind, parent) =>
        finding? scheme child level kind parent)

theorem nodeId_of_mem_reportOf {scheme : Scheme} {graph : Graph} {child : Node}
    {finding : Finding} (member : finding ∈ reportOf scheme graph child)
    : finding.nodeId = some child.id := by
  rw [reportOf] at member
  split at member
  · cases member
  · obtain ⟨entry, -, found⟩ := List.mem_filterMap.mp member
    obtain ⟨parentLevel, -, -, rfl⟩ := finding?_eq_some_iff.mp found
    rfl

section Sources

variable {config : Config} {limit : Nat} {scheme : Scheme} {sources : SourceSet}
  {child parent : Node}

/-- An edge to what a requirement owns declares it. -/
theorem declares_of_mem_parents {kind : EdgeKind}
    (member : (kind, parent) ∈ parents (Graph.ofSources scheme sources) child)
    : (Graph.ofSources scheme sources).Declares kind child.id parent.id := by
  have assembled := (Graph.faithful_ofSources scheme sources).assembled
  obtain ⟨edge, present, leaves, parentage, owned, rfl⟩ :=
    exists_edge_of_mem_parents assembled.wired member
  exact ⟨edge, present, rfl, EdgeKind.isParentage_iff.mp parentage, leaves,
    (assembled.owner?_eq_some_iff.mp owned).2⟩

/-- The parents that the rule goes through are the requirements that are declared as parents. -/
theorem exists_mem_parents_iff_declares
    : (∃ kind, (kind, parent) ∈ parents (Graph.ofSources scheme sources) child)
      ↔ parent ∈ (Graph.ofSources scheme sources).requirements
        ∧ ∃ kind, (Graph.ofSources scheme sources).Declares kind child.id parent.id := by
  have assembled := (Graph.faithful_ofSources scheme sources).assembled
  rw [exists_mem_parents_iff assembled.wired]
  constructor
  · rintro ⟨edge, present, leaves, parentage, owned⟩
    obtain ⟨requirement, belongs⟩ := assembled.owner?_eq_some_iff.mp owned
    exact ⟨requirement, edge.kind, edge, present, rfl, EdgeKind.isParentage_iff.mp parentage,
      leaves, belongs⟩
  · rintro ⟨requirement, kind, edge, present, rfl, parentage, leaves, belongs⟩
    exact ⟨edge, present, leaves, EdgeKind.isParentage_iff.mpr parentage,
      assembled.owner?_eq_some_iff.mpr ⟨requirement, belongs⟩⟩

/-- Something is found exactly if the level of the parent is known and not permitted, whatever the
kind of the edge. -/
theorem isSome_finding?_iff (compiled : config.compileWithin limit = .ok scheme) {level : Level}
    (known : scheme.levelOf? child = some level) {kind : EdgeKind}
    : (finding? scheme child level kind parent).isSome = true
      ↔ ∃ parentLevel,
          scheme.levelOf? parent = some parentLevel
          ∧ ¬ config.hierarchy.Permits level parentLevel := by
  have own := Scheme.mem_levels_of_levelOf? known
  have permits {parentLevel : Level} (there : scheme.levelOf? parent = some parentLevel) :=
    Config.permitsParent_iff compiled own (Scheme.mem_levels_of_levelOf? there)
  simp only [Option.isSome_iff_exists, finding?_eq_some_iff]
  constructor
  · rintro ⟨_, parentLevel, there, refused, -⟩
    exact ⟨parentLevel, there, (permits there).not.mp refused⟩
  · rintro ⟨parentLevel, there, refused⟩
    exact ⟨_, parentLevel, there, (permits there).not.mpr refused, rfl⟩

/-- The parents about which the rule finds something are those that are forbidden. -/
theorem exists_mem_parents_iff_forbids (compiled : config.compileWithin limit = .ok scheme)
    {level : Level} (known : scheme.levelOf? child = some level)
    : (∃ kind, (kind, parent) ∈ parents (Graph.ofSources scheme sources) child
        ∧ (finding? scheme child level kind parent).isSome = true)
      ↔ (Graph.ofSources scheme sources).Forbids config.hierarchy scheme child parent := by
  simp only [isSome_finding?_iff compiled known]
  constructor
  · rintro ⟨kind, listed, parentLevel, there, refused⟩
    obtain ⟨requirement, declared⟩ := exists_mem_parents_iff_declares.mp ⟨kind, listed⟩
    exact ⟨requirement, declared, level, parentLevel, known, there, refused⟩
  · intro forbids
    obtain ⟨_, parentLevel, same, there, refused⟩ := forbids.levels
    obtain rfl := Option.some.inj (known.symm.trans same)
    obtain ⟨kind, listed⟩ :=
      exists_mem_parents_iff_declares.mpr ⟨forbids.requirement, forbids.declared⟩
    exact ⟨kind, listed, parentLevel, there, refused⟩

/-- What the rule says of one requirement is one finding for each parent that is forbidden. -/
theorem exists_parents_reportOf (compiled : config.compileWithin limit = .ok scheme) (child : Node)
    : let graph := Graph.ofSources scheme sources
      ∃ reported : List Node,
        (reported.map Node.id).Nodup
        ∧ (∀ parent, parent ∈ reported ↔ graph.Forbids config.hierarchy scheme child parent)
        ∧ List.Forall₂ (Reports scheme graph child) reported (reportOf scheme graph child) := by
  intro graph
  cases known : scheme.levelOf? child with
  | none =>
      refine ⟨[], List.nodup_nil, fun parent => ?_, ?_⟩
      · refine iff_of_false List.not_mem_nil (fun forbids => ?_)
        obtain ⟨level, -, own, -⟩ := forbids.levels
        rw [known] at own
        cases own
      · rw [reportOf, known]
        exact .nil
  | some level =>
      let entries := (parents graph child).filter (fun (kind, parent) =>
        (finding? scheme child level kind parent).isSome)
      refine ⟨entries.map Prod.snd, ?_, fun parent => ?_, ?_⟩
      · have distinct : ((parents graph child).map (fun entry => entry.2.id)).Nodup :=
          nodup_map_eraseDupsBy _ _
        rw [List.map_map]
        exact distinct.sublist (List.filter_sublist.map _)
      · rw [← exists_mem_parents_iff_forbids compiled known]
        simp [entries, graph]
      · rw [reportOf, known]
        refine List.forall₂_map_left_iff.mpr (forall₂_filterMap ?_)
        rintro ⟨kind, parent⟩ member result found
        obtain ⟨parentLevel, there, -, rfl⟩ := finding?_eq_some_iff.mp found
        exact ⟨kind, level, parentLevel, declares_of_mem_parents member, known, there, rfl⟩

end Sources

end Hierarchy

/-- For every configuration and every list of files, the rule on hierarchies reports about each
requirement exactly the parents that it is declared to have and may not have, each once, and
nothing else. Which parents it may have is what the configured hierarchy says of the two levels. -/
theorem hierarchy_check_exact {config : Config} {limit : Nat} {scheme : Scheme}
    (compiled : config.compileWithin limit = .ok scheme) (sources : SourceSet)
    (coverage : CoverageReport)
    : let graph := Graph.ofSources scheme sources
      let findings := hierarchy.check ⟨graph, scheme, coverage⟩
      (∀ child ∈ graph.requirements, ∃ reported : List Node,
        (reported.map Node.id).Nodup
        ∧ (∀ parent, parent ∈ reported ↔ graph.Forbids config.hierarchy scheme child parent)
        ∧ List.Forall₂ (Hierarchy.Reports scheme graph child) reported
            (findingsAbout findings child.id))
      ∧ (∀ finding ∈ findings, ∃ child ∈ graph.requirements, finding.nodeId = some child.id)
      ∧ ∀ child ∈ scheme.levels, ∀ parent ∈ scheme.levels,
          scheme.permitsParent child parent = true ↔ config.hierarchy.Permits child parent := by
  intro graph findings
  have listed : findings = graph.requirements.flatMap (Hierarchy.reportOf scheme graph) := rfl
  have own (child : Node) (finding : Finding)
      (member : finding ∈ Hierarchy.reportOf scheme graph child)
      : finding.nodeId = some child.id :=
    Hierarchy.nodeId_of_mem_reportOf member
  refine ⟨fun child member => ?_, fun finding member => ?_, fun child memberChild parent other =>
    Config.permitsParent_iff compiled memberChild other⟩
  · rw [listed, findingsAbout_requirements own member]
    exact Hierarchy.exists_parents_reportOf compiled child
  · obtain ⟨child, present, reported⟩ := List.mem_flatMap.mp (listed ▸ member)
    exact ⟨child, present, own child finding reported⟩

/-- A table with two spellings of one level, the later of which permits less. -/
def spelledTwice : Config where
  hierarchy := {
    allowedParents := some (.ofList [("DEV", ["OPS"]), ("OPS", ["prd"]), ("dev", ["Prd"])]) }

/-- What the table compiles to. -/
def spelledTwiceScheme : Scheme :=
  let first : Std.ExtTreeMap String (List String) := {("DEV", ["OPS"])}
  { Config.defaultScheme with
    allowedParents := some ((first.insert "OPS" ["PRD"]).insert "DEV" ["PRD"]) }

/-- A requirement is linked to a parent that it may not have by two letters and by two kinds of
edges, and to one that it may have. -/
def linkedOften : SourceSet where
  files := [
    ⟨"login.md", "# REQ-p00001: Login\n**Level**: PRD\n*End* *Login*\n"⟩,
    ⟨"form.md", "# REQ-o00001: Form\n**Level**: OPS | **Implements**: REQ-p00001\n"
      ++ "A. Ask.\nB. Tell.\n*End* *Form*\n"⟩,
    ⟨"button.md", "# REQ-d00001: Button\n"
      ++ "**Level**: DEV | **Implements**: REQ-o00001-A-B, REQ-p00001 | **Refines**: REQ-o00001\n"
      ++ "*End* *Button*\n"⟩]

theorem hierarchy_check_exact_linkedOften
    : let graph := Graph.ofSources spelledTwiceScheme linkedOften
      let findings := hierarchy.check ⟨graph, spelledTwiceScheme, graph.coverage⟩
      spelledTwice.compile = .ok spelledTwiceScheme
      ∧ ∃ child ∈ graph.requirements, child.id = "REQ-d00001"
        ∧ ∃ parent ∈ graph.requirements, parent.id = "REQ-o00001"
          ∧ ∃ finding,
              findingsAbout findings child.id = [finding]
              ∧ Hierarchy.Reports spelledTwiceScheme graph child parent finding := by
  intro graph findings
  have compiled : spelledTwice.compile = .ok spelledTwiceScheme := rfl
  have evaluated
      : ∃ child ∈ graph.requirements, child.id = "REQ-d00001"
        ∧ ∃ parent ∈ graph.requirements, parent.id = "REQ-o00001"
          ∧ graph.Declares .implements child.id parent.id
          ∧ graph.Declares .refines child.id parent.id
          ∧ spelledTwiceScheme.levelOf? child = some ⟨"DEV", 'd', 3⟩
          ∧ spelledTwiceScheme.levelOf? parent = some ⟨"OPS", 'o', 2⟩
          ∧ (findingsAbout findings child.id).length = 1 := by
    decide +kernel
  have refused : ¬ spelledTwice.hierarchy.Permits ⟨"DEV", 'd', 3⟩ ⟨"OPS", 'o', 2⟩ :=
    (Config.permitsParent_iff compiled (by decide) (by decide)).not.mp (by decide +kernel)
  obtain ⟨child, member, isButton, parent, other, isForm, implemented, -, known, there, one⟩ :=
    evaluated
  obtain ⟨reported, -, forbidden, paired⟩ :=
    (hierarchy_check_exact compiled linkedOften graph.coverage).1 child member
  have own : parent ∈ reported := (forbidden parent).mpr {
    requirement := other
    declared := ⟨_, implemented⟩
    levels := ⟨_, _, known, there, refused⟩ }
  obtain ⟨finding, all⟩ := List.length_eq_one_iff.mp one
  obtain ⟨single, rfl⟩ := List.length_eq_one_iff.mp (paired.length_eq.trans one)
  obtain rfl := List.mem_singleton.mp own
  refine ⟨compiled, child, member, isButton, parent, other, isForm, finding, all, ?_⟩
  exact (List.forall₂_cons.mp (all ▸ paired)).1

end Rule

end Traceability
