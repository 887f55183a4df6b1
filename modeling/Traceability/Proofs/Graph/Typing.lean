import Traceability.Proofs.Claim.Targets
import Traceability.Proofs.Graph.Duplicates
import Traceability.Proofs.Graph.Written

/-! Between which kinds of nodes edges go.
Every kind of edge has the kinds of nodes that it leaves and those that it is meant for. Code and
tests only refer to what starts as a requirement identifier does, and links lead to assertions.
What a metadata line lists is looked up as it is written, among the nodes of all kinds, so the
edges that miss their kinds are those of metadata lines that list such nodes.
-/

namespace Traceability

namespace EdgeKind

/-- The kinds of nodes that edges of a kind leave. -/
def sourceKinds : EdgeKind → List NodeKind
  | .implements => [.requirement, .code]
  | .refines => [.requirement]
  | .validates => [.test]
  | .addresses => [.requirement]
  | .contains => [.requirement]

/-- The kinds of nodes that edges of a kind are meant for. -/
def targetKinds : EdgeKind → List NodeKind
  | .implements => [.requirement, .assertion]
  | .refines => [.requirement, .assertion]
  | .validates => [.requirement, .assertion]
  | .addresses => [.journey]
  | .contains => [.assertion]

end EdgeKind

/-- What a metadata line lists for a kind of edge. -/
def Requirement.targets (requirement : Requirement) : EdgeKind → List String
  | .implements => requirement.implementsTargets
  | .refines => requirement.refinesTargets
  | .addresses => requirement.addressesTargets
  | .validates => []
  | .contains => []

/-- What the node of a requirement lists for a kind of edge. -/
def Node.targets (node : Node) : EdgeKind → List String
  | .implements => node.list FieldKey.implementsTargets
  | .refines => node.list FieldKey.refinesTargets
  | .addresses => node.list FieldKey.addressesTargets
  | .validates => []
  | .contains => []

/-- An edge whose target exists goes between nodes of the right kinds, and a link to an assertion
leads to one of its source's own. -/
def Graph.WellTyped (graph : Graph) (edge : Edge) : Prop :=
  ∀ target, graph.node? edge.target = some target →
    ∃ source,
      graph.node? edge.source = some source
      ∧ source.kind ∈ edge.kind.sourceKinds
      ∧ target.kind ∈ edge.kind.targetKinds
      ∧ (edge.kind = .contains → target ∈ graph.assertionsOf edge.source)

-----------------------------------------------------------------------------------------
-- References
-----------------------------------------------------------------------------------------

/-- Metadata lines list targets for edges that leave requirements, and none for links. -/
theorem Requirement.kind_of_mem_targets {requirement : Requirement} {kind : EdgeKind}
    {target : String} (listed : target ∈ requirement.targets kind)
    : .requirement ∈ kind.sourceKinds
      ∧ kind ≠ .contains
      ∧ (kind ≠ .addresses → kind.targetKinds = [.requirement, .assertion]) := by
  cases kind with
  | implements => exact ⟨List.mem_cons_self, EdgeKind.noConfusion, fun _ => rfl⟩
  | refines => exact ⟨List.mem_cons_self, EdgeKind.noConfusion, fun _ => rfl⟩
  | addresses => exact ⟨List.mem_cons_self, EdgeKind.noConfusion, fun other => absurd rfl other⟩
  | validates => exact absurd listed List.not_mem_nil
  | contains => exact absurd listed List.not_mem_nil

namespace Assembly

theorem targets_requirementNode (path : String) (block : Block) (requirement : Requirement)
    : (requirementNode path block requirement).targets = requirement.targets := by
  funext kind
  cases kind <;>
    simp [Node.targets, Requirement.targets, requirementNode, Node.list, Node.field_withField,
      FieldKey.implementsTargets, FieldKey.refinesTargets, FieldKey.addressesTargets,
      FieldKey.assertions, FieldKey.endMarker, FieldKey.endLine]

/-- A metadata line is written out reference by reference. -/
theorem mem_declared_iff {block : Block} {requirement : Requirement}
    {reference : PendingReference}
    : reference ∈ declared block requirement
      ↔ reference.source = requirement.id
        ∧ reference.line = block.startLine
        ∧ reference.target ∈ requirement.targets reference.kind := by
  obtain ⟨source, target, kind, line⟩ := reference
  cases kind <;> simp [declared, Requirement.targets] <;> grind

end Assembly

namespace PendingReference

variable {scheme : Scheme} {reference : PendingReference}

theorem prefixed_of_parseId? {id : String} {parts : Identifier}
    (parsed : scheme.parseId? id = some parts)
    : scheme.Prefixed id := by
  obtain ⟨⟨code, digits, rest⟩, taken, -⟩ := Option.bind_eq_some_iff.mp parsed
  obtain ⟨written, -⟩ := Scheme.takePrefixed?_spec taken
  exact ⟨code :: (digits ++ rest), by simpa using written⟩

/-- A reference is an edge to what is written, unless it names several assertions of a
requirement. -/
theorem whole_mem_edges_or (scheme : Scheme) (reference : PendingReference)
    : { source := reference.source, target := reference.target, kind := reference.kind,
        line := reference.line } ∈ reference.edges scheme
      ∨ reference.kind ≠ .addresses ∧ scheme.Prefixed reference.target := by
  simp only [edges]
  by_cases journey : reference.kind = .addresses
  · simp [journey]
  · rw [if_neg journey]
    split
    · exact Or.inl (List.mem_singleton.mpr rfl)
    · next several =>
        refine Or.inr ⟨journey, ?_⟩
        cases parsed : scheme.parseId? reference.target with
        | none => simp [parsed] at several
        | some parts => exact prefixed_of_parseId? parsed

end PendingReference

/-- What a record refers to stands on the metadata line of a requirement or in code or a test. -/
theorem Record.reference_cases {record : Record} {reference : PendingReference}
    (own : reference ∈ record.references)
    : (∃ requirement,
        record.requirement? = some requirement
        ∧ reference.source = requirement.id
        ∧ reference.target ∈ requirement.targets reference.kind)
      ∨ ∃ node,
          record.referenceNode? = some node
          ∧ reference.source = node.id
          ∧ node.kind ∈ reference.kind.sourceKinds
          ∧ reference.kind ≠ .contains
          ∧ reference.kind.targetKinds = [.requirement, .assertion]
          ∧ ∀ scheme : Scheme,
              record.block.content.Prefixed scheme → scheme.Prefixed reference.target := by
  rw [references, Assembly.referencesOf] at own
  split at own
  · next requirement content =>
      obtain ⟨source, -, listed⟩ := Assembly.mem_declared_iff.mp own
      refine Or.inl ⟨requirement, ?_, source, listed⟩
      rw [requirement?, content]
  · next written content =>
      obtain ⟨target, listed, rfl⟩ := List.mem_map.mp own
      refine Or.inr ⟨_, by rw [referenceNode?, content], rfl, ?_, EdgeKind.noConfusion, rfl, ?_⟩
      · exact List.mem_cons_of_mem _ (List.mem_singleton.mpr rfl)
      · rw [content]
        exact fun scheme named => named target listed
  · next written content =>
      obtain ⟨target, listed, rfl⟩ := List.mem_map.mp own
      refine Or.inr ⟨_, by rw [referenceNode?, content], rfl, ?_, EdgeKind.noConfusion, rfl, ?_⟩
      · exact List.mem_singleton.mpr rfl
      · rw [content]
        exact fun scheme named => named target listed
  · exact absurd own List.not_mem_nil

-----------------------------------------------------------------------------------------
-- The kinds of targets
-----------------------------------------------------------------------------------------

/-- What starts as a requirement identifier does names a requirement or an assertion. -/
theorem Scheme.Names.kind_of_prefixed {scheme : Scheme} (apart : scheme.Apart) {kind : NodeKind}
    {id : String} (named : scheme.Names kind id) (starts : scheme.Prefixed id)
    : kind = .requirement ∨ kind = .assertion := by
  obtain ⟨rest, written⟩ := named.starts
  obtain ⟨more, writtenOther⟩ := starts
  obtain ⟨word, separator, -⟩ := parts_eq_of_append_eq
    (apart.isAlphanum_start kind).1 (apart.isAlphanum_start kind).2
    (apart.isAlphanum_start .requirement).1 (apart.isAlphanum_start .requirement).2
    (written.symm.trans writtenOther)
  rcases apart.eq_of_start_eq (Prod.ext (String.toList_inj.mp word) separator) with
    same | ⟨same, -⟩ | ⟨same, -⟩
  · exact Or.inl same
  · exact Or.inl same
  · exact Or.inr same

namespace Graph

section Sources

variable {scheme : Scheme} {sources : SourceSet}

/-- Accepted records were read by the standard registry. -/
theorem mem_records_of_accepted {record : Record}
    (accepted : record ∈ acceptedRecords (sources.parsed scheme))
    : record ∈ sources.records scheme :=
  (Intake.accepted_sublist (sources.parsed scheme)).subset accepted

theorem prefixed_of_accepted {record : Record}
    (accepted : record ∈ acceptedRecords (sources.parsed scheme))
    : record.block.content.Prefixed scheme := by
  obtain ⟨file, parsed, listed⟩ := List.mem_flatMap.mp (mem_records_of_accepted accepted)
  obtain ⟨source, -, rfl⟩ := List.mem_map.mp parsed
  obtain ⟨block, own, rfl⟩ := List.mem_map.mp listed
  exact Registry.prefixed_of_mem_blocks own

theorem names_of_node? {id : String} {node : Node}
    (found : (ofSources scheme sources).node? id = some node)
    : scheme.Names node.kind id := by
  obtain ⟨record, accepted, declared⟩ := exists_accepted_of_bare? (bare?_of_node? found)
  have named := names_of_mem_records (mem_records_of_accepted accepted) declared
  exact id_of_node? found ▸ named

/-- What starts as a requirement identifier does is the right target for references in code and
tests. -/
theorem mem_targetKinds_of_prefixed (apart : scheme.Apart) {kind : EdgeKind}
    (trace : kind.targetKinds = [.requirement, .assertion]) {id : String}
    (starts : scheme.Prefixed id) {node : Node}
    (found : (ofSources scheme sources).node? id = some node)
    : node.kind ∈ kind.targetKinds := by
  rw [trace]
  rcases (names_of_node? found).kind_of_prefixed apart starts with isKind | isKind
  · exact isKind ▸ List.mem_cons_self
  · exact isKind ▸ List.mem_cons_of_mem _ (List.mem_singleton.mpr rfl)

/-- The node of an accepted record is kept with its kind and its attributes. -/
theorem exists_node_of_accepted {record : Record}
    (accepted : record ∈ acceptedRecords (sources.parsed scheme)) {entry : Node}
    (own : record.node? = some entry)
    : ∃ node, (ofSources scheme sources).node? entry.id = some node ∧ node.bare = entry :=
  bare?_eq_some_iff.mp (bare?_of_accepted scheme accepted own)

/-- A link leads from a requirement to one of its assertions. -/
theorem wellTyped_of_mem_links (apart : scheme.Apart) {record : Record}
    (accepted : record ∈ acceptedRecords (sources.parsed scheme)) {edge : Edge}
    (member : edge ∈ record.links)
    : (ofSources scheme sources).WellTyped edge := by
  rw [Record.links, Assembly.linksOf] at member
  split at member
  · next requirement content =>
      obtain ⟨assertion, listed, rfl⟩ := List.mem_map.mp member
      have isRequirement : record.requirement? = some requirement := by
        rw [Record.requirement?, content]
      have own := Record.node?_of_requirement? isRequirement
      obtain ⟨source, found, bare⟩ := exists_node_of_accepted accepted own
      have kind : source.kind = .requirement := by
        rw [show source.kind = source.bare.kind from rfl, bare, Assembly.kind_requirementNode]
      have letters
          : source.list FieldKey.assertions
            = requirement.assertions.map (fun assertion => assertion.letter.toString) := by
        rw [show source.list FieldKey.assertions = source.bare.list FieldKey.assertions from rfl,
          bare, Assembly.letters_requirementNode]
      rw [Assembly.id_requirementNode] at found
      intro target there
      have isId : scheme.IsId requirement.id :=
        (names_of_node? found).requirement kind
      refine ⟨source, found, kind ▸ List.mem_singleton.mpr rfl, ?_, fun _ => ?_⟩
      · refine List.mem_singleton.mpr ?_
        exact (names_of_node? there).kind_eq apart (isId.names_assertionId assertion.letter)
      · rw [show (Assembly.link requirement.id assertion).source = requirement.id from rfl,
          assertionsOf, found]
        refine List.mem_filterMap.mpr ⟨assertion.letter.toString, ?_, there⟩
        exact letters ▸ List.mem_map_of_mem listed
  · exact absurd member List.not_mem_nil

/-- Only the kind of its target can be wrong in an edge from a node of the right kind. -/
theorem wellTyped_of_source {graph : Graph} {edge : Edge} {source : Node}
    (found : graph.node? edge.source = some source) (fits : source.kind ∈ edge.kind.sourceKinds)
    (plain : edge.kind ≠ .contains)
    (targets
      : ∀ target, graph.node? edge.target = some target →
          target.kind ∈ edge.kind.targetKinds)
    : graph.WellTyped edge :=
  fun target there =>
    ⟨source, found, fits, targets target there, fun contains => absurd contains plain⟩

/-- What the node of a requirement lists was written on its metadata line. -/
theorem targets_of_bare {node : Node} {path : String} {block : Block} {requirement : Requirement}
    (bare : node.bare = Assembly.requirementNode path block requirement)
    : node.kind = .requirement ∧ node.targets = requirement.targets := by
  constructor
  · rw [show node.kind = node.bare.kind from rfl, bare, Assembly.kind_requirementNode]
  · rw [show node.targets = node.bare.targets from rfl, bare, Assembly.targets_requirementNode]

/-- An edge of a reference is well typed, or a requirement lists a target of another kind. -/
theorem wellTyped_or_of_reference (apart : scheme.Apart) {record : Record}
    (accepted : record ∈ acceptedRecords (sources.parsed scheme)) {reference : PendingReference}
    (own : reference ∈ record.references) {edge : Edge} (member : edge ∈ reference.edges scheme)
    : (ofSources scheme sources).WellTyped edge
      ∨ ∃ node other,
          (ofSources scheme sources).node? edge.source = some node
          ∧ node.kind = .requirement
          ∧ edge.target ∈ node.targets edge.kind
          ∧ (ofSources scheme sources).node? edge.target = some other
          ∧ other.kind ∉ edge.kind.targetKinds := by
  have source := Assembly.source_of_mem_edges member
  obtain ⟨kind, written⟩ := PendingReference.cases_of_mem_edges member
  rcases Record.reference_cases own with
    ⟨requirement, isRequirement, leaves, listed⟩ | ⟨entry, isReference, leaves, fits, plain, trace,
      named⟩
  · obtain ⟨node, found, bare⟩ :=
      exists_node_of_accepted accepted (Record.node?_of_requirement? isRequirement)
    rw [Assembly.id_requirementNode, ← leaves, ← source] at found
    obtain ⟨isKind, targets⟩ := targets_of_bare bare
    rw [← kind] at listed
    obtain ⟨fits, plain, trace⟩ := Requirement.kind_of_mem_targets listed
    by_cases right : ∀ target, (ofSources scheme sources).node? edge.target = some target →
        target.kind ∈ edge.kind.targetKinds
    · exact Or.inl (wellTyped_of_source found (isKind ▸ fits) plain right)
    · push Not at right
      obtain ⟨other, there, wrong⟩ := right
      rcases written with ⟨-, same⟩ | ⟨journeyless, -, isId⟩
      · refine Or.inr ⟨node, other, found, isKind, ?_, there, wrong⟩
        exact targets ▸ same ▸ listed
      · rw [← kind] at journeyless
        exact absurd (mem_targetKinds_of_prefixed apart (trace journeyless) isId.starts there) wrong
  · obtain ⟨node, found, bare⟩ :=
      exists_node_of_accepted accepted (Record.node?_of_referenceNode? isReference)
    rw [← leaves, ← source] at found
    rw [← bare, ← kind] at fits
    rw [← kind] at plain trace
    refine Or.inl (wellTyped_of_source found fits plain (fun target there => ?_))
    refine mem_targetKinds_of_prefixed apart trace ?_ there
    rcases written with ⟨-, same⟩ | ⟨-, -, isId⟩
    · exact same ▸ named scheme (prefixed_of_accepted accepted)
    · exact isId.starts

/-- What a requirement lists is an edge, unless it names several assertions of a requirement. -/
theorem exists_edge_of_mem_targets {id : String} {node : Node}
    (found : (ofSources scheme sources).node? id = some node) (isKind : node.kind = .requirement)
    {target : String} {kind : EdgeKind} (listed : target ∈ node.targets kind)
    : (∃ edge ∈ (ofSources scheme sources).edges,
        edge.source = id ∧ edge.target = target ∧ edge.kind = kind)
      ∨ scheme.Prefixed target ∧ kind.targetKinds = [.requirement, .assertion] := by
  obtain ⟨record, accepted, declared⟩ := exists_accepted_of_bare? (bare?_of_node? found)
  obtain ⟨requirement, content, bare⟩ := Assembly.requirement_of_mem_nodesOf declared isKind
  obtain ⟨-, targets⟩ := targets_of_bare bare
  have named : requirement.id = id := by
    rw [← id_of_node? found, show node.id = node.bare.id from rfl, bare,
      Assembly.id_requirementNode]
  rw [targets] at listed
  let reference : PendingReference := ⟨requirement.id, target, kind, record.block.startLine⟩
  have own : reference ∈ record.references := by
    rw [Record.references, Assembly.referencesOf, content]
    exact Assembly.mem_declared_iff.mpr ⟨rfl, rfl, listed⟩
  rcases reference.whole_mem_edges_or scheme with whole | ⟨journeyless, starts⟩
  · obtain ⟨edge, member, same⟩ := exists_edge_of_reference accepted own whole
    simp only [Edge.same, Bool.and_eq_true, beq_iff_eq] at same
    obtain ⟨⟨⟨isSource, isTarget⟩, isEdgeKind⟩, -⟩ := same
    exact Or.inl ⟨edge, member, isSource.symm.trans named, isTarget.symm, isEdgeKind.symm⟩
  · exact Or.inr ⟨starts, (Requirement.kind_of_mem_targets listed).2.2 journeyless⟩

end Sources

-----------------------------------------------------------------------------------------
-- Edges that miss their kinds
-----------------------------------------------------------------------------------------

/-- An edge is well typed unless it is one of a metadata line, which lists a node of a kind that
the edge is not meant for; and every such target of a metadata line is an edge that is not well
typed. So links are well typed, and so is what code and tests refer to. -/
theorem exists_illTyped_iff {config : Config} {limit : Nat} {scheme : Scheme}
    (compiled : config.compileWithin limit = .ok scheme) (sources : SourceSet) (id target : String)
    (kind : EdgeKind)
    : (∃ edge ∈ (ofSources scheme sources).edges,
        (edge.source = id ∧ edge.target = target ∧ edge.kind = kind)
        ∧ ¬ (ofSources scheme sources).WellTyped edge)
      ↔ ∃ node other,
          (ofSources scheme sources).node? id = some node
          ∧ node.kind = .requirement
          ∧ target ∈ node.targets kind
          ∧ (ofSources scheme sources).node? target = some other
          ∧ other.kind ∉ kind.targetKinds := by
  have apart := Scheme.apart_of_compile compiled
  constructor
  · intro given
    obtain ⟨edge, member, ⟨rfl, rfl, rfl⟩, wrong⟩ := given
    obtain ⟨record, accepted, link | ⟨reference, own, within⟩⟩ := exists_record_of_mem_edges member
    · exact absurd (wellTyped_of_mem_links apart accepted link) wrong
    · exact (wellTyped_or_of_reference apart accepted own within).resolve_left wrong
  · intro given
    obtain ⟨node, other, found, isKind, listed, there, wrong⟩ := given
    rcases exists_edge_of_mem_targets found isKind listed with
      ⟨edge, member, rfl, rfl, rfl⟩ | ⟨starts, trace⟩
    · refine ⟨edge, member, ⟨rfl, rfl, rfl⟩, fun wellTyped => ?_⟩
      obtain ⟨source, -, -, right, -⟩ := wellTyped other there
      exact wrong right
    · exact absurd (mem_targetKinds_of_prefixed apart trace starts there) wrong

/-- A requirement that implements a journey, where it could only address it. -/
def implementedJourney : SourceSet where
  files := [
    ⟨"signin.md", "# JNY-User-01: Sign in\n*End* *JNY-User-01*\n"⟩,
    ⟨"login.md", "# REQ-p00001: Login\n**Level**: PRD | **Implements**: JNY-User-01\n"
      ++ "*End* *Login*\n"⟩]

theorem exists_illTyped_implementedJourney
    : ∃ edge ∈ (ofSources Config.defaultScheme implementedJourney).edges,
        (edge.source = "REQ-p00001" ∧ edge.target = "JNY-User-01" ∧ edge.kind = .implements)
        ∧ ¬ (ofSources Config.defaultScheme implementedJourney).WellTyped edge := by
  refine (exists_illTyped_iff Config.compile_default implementedJourney _ _ _).mpr ?_
  have evaluated
      : ((ofSources Config.defaultScheme implementedJourney).node? "REQ-p00001").any
            (fun node => decide (node.kind = .requirement)
              && decide ("JNY-User-01" ∈ node.targets .implements)) = true
        ∧ ((ofSources Config.defaultScheme implementedJourney).node? "JNY-User-01").any
            (fun other => decide (other.kind ∉ EdgeKind.implements.targetKinds)) = true := by
    decide +kernel
  obtain ⟨isSource, isTarget⟩ := evaluated
  obtain ⟨node, found, fits⟩ := (Option.any_eq_true _ _).mp isSource
  obtain ⟨other, there, wrong⟩ := (Option.any_eq_true _ _).mp isTarget
  rw [Bool.and_eq_true, decide_eq_true_eq, decide_eq_true_eq] at fits
  exact ⟨node, other, found, fits.1, fits.2, there, of_decide_eq_true wrong⟩

/-- So not every edge is well typed: a journey is the target of an edge that places a requirement
under a parent. -/
theorem not_wellTyped_implementedJourney
    : ¬ ∀ edge ∈ (ofSources Config.defaultScheme implementedJourney).edges,
        (ofSources Config.defaultScheme implementedJourney).WellTyped edge := by
  intro all
  have evaluated
      : ∃ edge ∈ (ofSources Config.defaultScheme implementedJourney).edges.toList,
          edge.kind = .implements
          ∧ ((ofSources Config.defaultScheme implementedJourney).node? edge.target).any
              (fun other => decide (other.kind = .journey)) = true := by
    decide +kernel
  obtain ⟨edge, member, kind, isJourney⟩ := evaluated
  obtain ⟨other, there, journey⟩ := (Option.any_eq_true _ _).mp isJourney
  obtain ⟨source, -, -, fits, -⟩ := all edge (Array.mem_toList_iff.mp member) other there
  rw [kind, of_decide_eq_true journey] at fits
  exact absurd fits (by decide)

end Graph

end Traceability
