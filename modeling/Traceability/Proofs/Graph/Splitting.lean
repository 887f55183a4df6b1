import Traceability.Proofs.Graph.Expansion
import Traceability.Proofs.Graph.Roles

/-! References that are split letter by letter.
A reference with several letters, all of them of assertions, may be written as a list of references
with one letter each. The graphs before and after agree on the roles of nodes. Where the one has an
edge to a requirement that names a letter, the other may have an edge to the assertion instead.
-/

namespace Traceability

-----------------------------------------------------------------------------------------
-- Splitting what is written
-----------------------------------------------------------------------------------------

namespace Graph

/-- A target names several letters, and each is that of an assertion of the requirement in front
of them. -/
structure Spreads (graph : Graph) (scheme : Scheme) (target base : String) (parts : Identifier)
    : Prop where
  parsed : scheme.parseId? target = some parts
  several : 2 ≤ parts.letters.length
  written : target = base ++ Identifier.suffix parts.letters
  requirement : graph.isRequirement base = true
  assertions
    : ∀ letter ∈ parts.letters, ∃ node,
        graph.node? (assertionId base letter.toString) = some node ∧ node.kind = .assertion

/-- The second list has the targets of the first in order, and for some that spread the targets
with one of their letters each. -/
inductive SplitsTargets (graph : Graph) (scheme : Scheme) : List String → List String → Prop
  | nil
    : SplitsTargets graph scheme [] []
  | keep {target : String} {targets others : List String}
    (later : SplitsTargets graph scheme targets others)
    : SplitsTargets graph scheme (target :: targets) (target :: others)
  | split {target base : String} {parts : Identifier} {targets others : List String}
    (spreads : graph.Spreads scheme target base parts)
    (later : SplitsTargets graph scheme targets others)
    : SplitsTargets graph scheme (target :: targets)
        (parts.letters.map (fun letter => assertionId base letter.toString) ++ others)

/-- Contents that differ at most in targets that are split. -/
inductive SplitsContent (graph : Graph) (scheme : Scheme) : Content → Content → Prop
  | same (content : Content)
    : SplitsContent graph scheme content content
  | requirement (requirement : Requirement) {implementsTargets refinesTargets addressesTargets}
    (implementing : graph.SplitsTargets scheme requirement.implementsTargets implementsTargets)
    (refining : graph.SplitsTargets scheme requirement.refinesTargets refinesTargets)
    (addressing : graph.SplitsTargets scheme requirement.addressesTargets addressesTargets)
    : SplitsContent graph scheme (.requirement requirement)
        (.requirement { requirement with implementsTargets, refinesTargets, addressesTargets })
  | codeReference {label : Option String} {targets others : List Target}
    (split : graph.SplitsTargets scheme (targets.map Target.id) (others.map Target.id))
    : SplitsContent graph scheme (.codeReference ⟨targets, label⟩) (.codeReference ⟨others, label⟩)
  | testReference {label : Option String} {targets others : List Target}
    (split : graph.SplitsTargets scheme (targets.map Target.id) (others.map Target.id))
    : SplitsContent graph scheme (.testReference ⟨targets, label⟩) (.testReference ⟨others, label⟩)

/-- Blocks on the same lines whose contents differ at most in targets that are split. -/
structure SplitsBlock (graph : Graph) (scheme : Scheme) (block other : Block) : Prop where
  startLine : other.startLine = block.startLine
  endLine : other.endLine = block.endLine
  content : graph.SplitsContent scheme block.content other.content

/-- Files at the same path with the same blocks, apart from targets that are split. -/
structure SplitsFile (graph : Graph) (scheme : Scheme) (file other : ParsedFile) : Prop where
  path : other.path = file.path
  blocks : List.Forall₂ (graph.SplitsBlock scheme) file.blocks other.blocks

/-- Records at the same place, apart from targets that are split. -/
structure SplitsRecord (graph : Graph) (scheme : Scheme) (record other : Record) : Prop where
  path : other.path = record.path
  block : graph.SplitsBlock scheme record.block other.block

variable {graph : Graph} {scheme : Scheme}

-----------------------------------------------------------------------------------------
-- Targets
-----------------------------------------------------------------------------------------

namespace SplitsTargets

variable {targets others : List String}

theorem refl (targets : List String) : graph.SplitsTargets scheme targets targets := by
  induction targets with
  | nil => exact .nil
  | cons target rest ih => exact .keep ih

/-- A target is kept, or all of its letters are among the other targets. -/
theorem cases_of_mem (splits : graph.SplitsTargets scheme targets others) {target : String}
    (member : target ∈ targets)
    : target ∈ others
      ∨ ∃ base parts,
          graph.Spreads scheme target base parts
          ∧ ∀ letter ∈ parts.letters, assertionId base letter.toString ∈ others := by
  induction splits with
  | nil => exact absurd member List.not_mem_nil
  | keep _ ih =>
      rcases List.mem_cons.mp member with rfl | later
      · exact Or.inl List.mem_cons_self
      · refine (ih later).imp (List.mem_cons_of_mem _) ?_
        rintro ⟨base, parts, spreads, letters⟩
        exact ⟨base, parts, spreads, fun letter named =>
          List.mem_cons_of_mem _ (letters letter named)⟩
  | split spreads _ ih =>
      rcases List.mem_cons.mp member with rfl | later
      · exact Or.inr ⟨_, _, spreads, fun letter named =>
          List.mem_append_left _ (List.mem_map_of_mem named)⟩
      · refine (ih later).imp (List.mem_append_right _) ?_
        rintro ⟨base, parts, spreads, letters⟩
        exact ⟨base, parts, spreads, fun letter named =>
          List.mem_append_right _ (letters letter named)⟩

/-- Another target was kept, or is one letter of a target. -/
theorem cases_of_mem_split (splits : graph.SplitsTargets scheme targets others) {target : String}
    (member : target ∈ others)
    : target ∈ targets
      ∨ ∃ whole ∈ targets, ∃ base parts,
          graph.Spreads scheme whole base parts
          ∧ ∃ letter ∈ parts.letters, target = assertionId base letter.toString := by
  induction splits with
  | nil => exact absurd member List.not_mem_nil
  | keep _ ih =>
      rcases List.mem_cons.mp member with rfl | later
      · exact Or.inl List.mem_cons_self
      · refine (ih later).imp (List.mem_cons_of_mem _) ?_
        rintro ⟨whole, listed, rest⟩
        exact ⟨whole, List.mem_cons_of_mem _ listed, rest⟩
  | split spreads _ ih =>
      rcases List.mem_append.mp member with own | later
      · obtain ⟨letter, named, rfl⟩ := List.mem_map.mp own
        exact Or.inr ⟨_, List.mem_cons_self, _, _, spreads, letter, named, rfl⟩
      · refine (ih later).imp (List.mem_cons_of_mem _) ?_
        rintro ⟨whole, listed, rest⟩
        exact ⟨whole, List.mem_cons_of_mem _ listed, rest⟩

end SplitsTargets

end Graph

/-- What a record lists for a kind of edge. -/
def Record.targets (record : Record) (kind : EdgeKind) : List String :=
  match record.block.content with
  | .requirement requirement => requirement.targets kind
  | .codeReference reference =>
      if kind = .implements then reference.targets.map Target.id else []
  | .testReference reference =>
      if kind = .validates then reference.targets.map Target.id else []
  | _ => []

/-- Everything listed is a reference. -/
theorem Record.mem_targets_iff {record : Record} {kind : EdgeKind} {target : String}
    : target ∈ record.targets kind
      ↔ ∃ reference ∈ record.references, reference.kind = kind ∧ reference.target = target := by
  rw [targets, references, Assembly.referencesOf]
  cases record.block.content with
  | requirement requirement =>
      simp only [Assembly.mem_declared_iff]
      constructor
      · intro listed
        exact ⟨⟨requirement.id, target, kind, record.block.startLine⟩, ⟨rfl, rfl, listed⟩, rfl, rfl⟩
      · rintro ⟨reference, ⟨-, -, listed⟩, rfl, rfl⟩
        exact listed
  | codeReference reference => cases kind <;> simp
  | testReference reference => cases kind <;> simp
  | journey journey => simp
  | comment text decorative => simp
  | remainder => simp

namespace Graph

variable {graph : Graph} {scheme : Scheme} {record other : Record}

theorem SplitsRecord.targets (splits : graph.SplitsRecord scheme record other) (kind : EdgeKind)
    : graph.SplitsTargets scheme (record.targets kind) (other.targets kind) := by
  have content := splits.block.content
  rw [Record.targets, Record.targets]
  generalize record.block.content = before at content
  generalize other.block.content = after at content
  cases content with
  | same content => exact .refl _
  | requirement requirement implementing refining addressing =>
      cases kind with
      | implements => exact implementing
      | refines => exact refining
      | addresses => exact addressing
      | validates => exact .nil
      | contains => exact .nil
  | codeReference split =>
      dsimp only
      split
      · exact split
      · exact .nil
  | testReference split =>
      dsimp only
      split
      · exact split
      · exact .nil

/-- The records declare nodes for the same roles. -/
theorem SplitsRecord.faces (splits : graph.SplitsRecord scheme record other)
    : other.nodes.map Node.face = record.nodes.map Node.face := by
  obtain ⟨path, startLine, endLine, rawText, content⟩ := record
  obtain ⟨pathOther, startLineOther, endLineOther, rawTextOther, contentOther⟩ := other
  obtain ⟨rfl, rfl, rfl, content⟩ := splits
  have reference (kind : NodeKind) (block blockOther : Block)
      (same : blockOther.startLine = block.startLine) (before after : Reference)
      : (Assembly.referenceNode kind pathOther blockOther after).face
        = (Assembly.referenceNode kind pathOther block before).face := by
    rw [Node.face, Node.face, Assembly.role_referenceNode, Assembly.role_referenceNode]
    simp only [Assembly.referenceNode, Node.withField, same]
  cases content with
  | same content => cases content <;> rfl
  | requirement requirement =>
      simp only [Record.nodes, Assembly.nodesOf, List.map_cons, Node.face,
        Assembly.role_requirementNode, Assembly.id_requirementNode]
  | codeReference => exact congrArg (fun face => [face]) (reference .code _ _ rfl _ _)
  | testReference => exact congrArg (fun face => [face]) (reference .test _ _ rfl _ _)

-----------------------------------------------------------------------------------------
-- References
-----------------------------------------------------------------------------------------

/-- The references of a record leave its node, so those of records with the same faces leave
nodes with one identifier. -/
theorem SplitsRecord.source_eq (splits : graph.SplitsRecord scheme record other)
    {reference copy : PendingReference} (own : reference ∈ record.references)
    (ownOther : copy ∈ other.references)
    : copy.source = reference.source := by
  obtain ⟨node, found, source, -⟩ := Record.exists_node_of_mem_references own
  obtain ⟨entry, there, sourceOther, -⟩ := Record.exists_node_of_mem_references ownOther
  rw [source, sourceOther, Record.id_eq_of_faces splits.faces found there]

end Graph

/-- What a reference mentions follows from its kind and its target. -/
theorem PendingReference.mentions_congr {scheme : Scheme} {reference copy : PendingReference}
    (kind : copy.kind = reference.kind) (target : copy.target = reference.target)
    : copy.mentions scheme = reference.mentions scheme := by
  obtain ⟨source, targetOther, kindOther, line⟩ := copy
  obtain rfl : kindOther = reference.kind := kind
  obtain rfl : targetOther = reference.target := target
  rfl

namespace Graph

variable {graph : Graph} {scheme : Scheme} {record other : Record}

/-- A target that spreads names several letters in a reference that may cover. -/
theorem Spreads.namesSeveral {reference : PendingReference} {base : String} {parts : Identifier}
    (spreads : graph.Spreads scheme reference.target base parts)
    (covers : reference.kind.covers = true)
    : reference.NamesSeveral scheme parts where
  kind := by
    intro addresses
    rw [addresses] at covers
    cases covers
  parsed := spreads.parsed
  several := spreads.several

/-- A reference to one letter of a target that spreads mentions the assertion. -/
theorem Spreads.mentions_letter (positive : scheme.idDigits ≠ 0) {target base : String}
    {parts : Identifier} (spreads : graph.Spreads scheme target base parts) {letter : Char}
    (named : letter ∈ parts.letters) {copy : PendingReference}
    (same : copy.target = assertionId base letter.toString)
    : copy.mentions scheme = [(assertionId base letter.toString, [])] := by
  rw [← same]
  refine PendingReference.mentions_of_not_namesSeveral (fun others names => ?_)
  have parsed := Scheme.parseId?_assertionId positive spreads.parsed spreads.written named
  rw [← same, names.parsed] at parsed
  have several := names.several
  rw [Option.some.inj parsed] at several
  exact absurd several (Nat.not_le_of_lt Nat.one_lt_two)

theorem Spreads.hasAssertion (owns : graph.OwnsAssertions) {target base : String}
    {parts : Identifier} (spreads : graph.Spreads scheme target base parts) {letter : Char}
    (named : letter ∈ parts.letters)
    : graph.HasAssertion base letter := by
  obtain ⟨node, found, kind⟩ := spreads.assertions letter named
  obtain ⟨requirement, own, same, has⟩ := owns _ node found kind
  obtain ⟨rfl, rfl⟩ := assertionId_inj.mp same
  exact has

/-- An edge and its copy say the same, or the edge names a letter of a requirement of which the
copy targets the assertion. -/
inductive SplitsEdge (graph : Graph) (edge copy : Edge) : Prop
  | same (source : copy.source = edge.source) (kind : copy.kind = edge.kind)
    (target : copy.target = edge.target) (letters : copy.letters = edge.letters)
  | split {letter : Char} (source : copy.source = edge.source) (kind : copy.kind = edge.kind)
    (target : copy.target = assertionId edge.target letter.toString)
    (names : edge.letters = [letter.toString]) (whole : copy.letters = [])
    (has : graph.HasAssertion edge.target letter)

/-- What an edge says decides what its copies are. -/
theorem SplitsEdge.congr {edge copy next nextCopy : Edge} (splits : graph.SplitsEdge edge copy)
    (same : Edge.same edge next = true) (sameCopy : Edge.same copy nextCopy = true)
    : graph.SplitsEdge next nextCopy := by
  obtain ⟨source, target, kind, letters⟩ := Edge.same_iff.mp same
  obtain ⟨sourceCopy, targetCopy, kindCopy, lettersCopy⟩ := Edge.same_iff.mp sameCopy
  obtain ⟨ownSource, ownTarget, ownKind, ownLetters, line⟩ := edge
  obtain ⟨copySource, copyTarget, copyKind, copyLetters, lineCopy⟩ := copy
  subst source target kind letters sourceCopy targetCopy kindCopy lettersCopy
  cases splits with
  | same source kind target letters => exact .same source kind target letters
  | split source kind target names whole has => exact .split source kind target names whole has

/-- What a record mentions with one letter of a requirement, the other may mention as the
assertion. -/
theorem SplitsRecord.exists_copy (owns : graph.OwnsAssertions) (positive : scheme.idDigits ≠ 0)
    (splits : graph.SplitsRecord scheme record other) {reference : PendingReference}
    (own : reference ∈ record.references) (covers : reference.kind.covers = true)
    {edge : Edge} (within : edge ∈ reference.edges scheme)
    : ∃ copy ∈ other.references, ∃ next ∈ copy.edges scheme, graph.SplitsEdge edge next := by
  obtain ⟨mention, made, rfl⟩ := List.mem_map.mp (PendingReference.edges_eq scheme _ ▸ within)
  have listed : reference.target ∈ record.targets reference.kind :=
    Record.mem_targets_iff.mpr ⟨reference, own, rfl, rfl⟩
  rcases (splits.targets reference.kind).cases_of_mem listed with
    kept | ⟨base, parts, spreads, letters⟩
  · obtain ⟨copy, there, kind, target⟩ := Record.mem_targets_iff.mp kept
    refine ⟨copy, there, copy.edgeOf mention, ?_, ?_⟩
    · rw [PendingReference.edges_eq, PendingReference.mentions_congr kind target]
      exact List.mem_map_of_mem made
    · exact .same (splits.source_eq own there) kind rfl rfl
  · rw [(spreads.namesSeveral covers).mentions_eq spreads.written] at made
    obtain ⟨letter, named, rfl⟩ := List.mem_map.mp made
    obtain ⟨copy, there, kind, target⟩ := Record.mem_targets_iff.mp (letters letter named)
    refine ⟨copy, there, copy.edgeOf (assertionId base letter.toString, []), ?_, ?_⟩
    · rw [PendingReference.edges_eq, spreads.mentions_letter positive named target]
      exact List.mem_map_of_mem (List.mem_singleton_self _)
    · exact .split (splits.source_eq own there) kind rfl rfl rfl (spreads.hasAssertion owns named)

/-- Whatever the other record mentions, the record mentions so or with a letter. -/
theorem SplitsRecord.exists_original (owns : graph.OwnsAssertions)
    (positive : scheme.idDigits ≠ 0) (splits : graph.SplitsRecord scheme record other)
    {copy : PendingReference}
    (own : copy ∈ other.references) (covers : copy.kind.covers = true)
    {edge : Edge} (within : edge ∈ copy.edges scheme)
    : ∃ reference ∈ record.references, ∃ first ∈ reference.edges scheme,
        graph.SplitsEdge first edge := by
  obtain ⟨mention, made, rfl⟩ := List.mem_map.mp (PendingReference.edges_eq scheme _ ▸ within)
  have listed : copy.target ∈ other.targets copy.kind :=
    Record.mem_targets_iff.mpr ⟨copy, own, rfl, rfl⟩
  rcases (splits.targets copy.kind).cases_of_mem_split listed with
    kept | ⟨whole, listedWhole, base, parts, spreads, letter, named, target⟩
  · obtain ⟨reference, there, kind, target⟩ := Record.mem_targets_iff.mp kept
    refine ⟨reference, there, reference.edgeOf mention, ?_, ?_⟩
    · rw [PendingReference.edges_eq, PendingReference.mentions_congr kind target]
      exact List.mem_map_of_mem made
    · exact .same (splits.source_eq there own) kind.symm rfl rfl
  · obtain ⟨reference, there, kind, rfl⟩ := Record.mem_targets_iff.mp listedWhole
    rw [spreads.mentions_letter positive named target] at made
    obtain rfl := List.mem_singleton.mp made
    refine ⟨reference, there, reference.edgeOf (base, [letter.toString]), ?_, ?_⟩
    · rw [PendingReference.edges_eq,
        (spreads.namesSeveral (kind ▸ covers)).mentions_eq spreads.written]
      exact List.mem_map_of_mem (List.mem_map_of_mem named)
    · exact .split (splits.source_eq there own) kind.symm rfl rfl rfl
        (spreads.hasAssertion owns named)

-----------------------------------------------------------------------------------------
-- Graphs
-----------------------------------------------------------------------------------------

/-- Both graphs agree on the roles of nodes, and each edge that may cover has a copy, as it is or
split, of which there are no others. -/
structure Splits (graph other : Graph) : Prop where
  roles : graph.SameRoles other
  forth
    : ∀ edge ∈ graph.edges, edge.kind.covers = true →
        ∃ copy ∈ other.edges, graph.SplitsEdge edge copy
  back
    : ∀ copy ∈ other.edges, copy.kind.covers = true →
        ∃ edge ∈ graph.edges, graph.SplitsEdge edge copy

/-- An edge that may cover belongs to a reference of an accepted record. -/
theorem exists_reference_of_covers {files : List ParsedFile} {edge : Edge}
    (member : edge ∈ (assemble scheme files).edges) (covers : edge.kind.covers = true)
    : ∃ record ∈ acceptedRecords files, ∃ reference ∈ record.references,
        edge ∈ reference.edges scheme ∧ reference.kind.covers = true := by
  obtain ⟨record, accepted, link | ⟨reference, own, within⟩⟩ := exists_record_of_mem_edges member
  · rw [Assembly.kind_of_mem_linksOf link] at covers
    cases covers
  · refine ⟨record, accepted, reference, own, within, ?_⟩
    rwa [← (PendingReference.cases_of_mem_edges within).1]

theorem forall₂_records {files others : List ParsedFile}
    (split : List.Forall₂ (graph.SplitsFile scheme) files others)
    : List.Forall₂ (graph.SplitsRecord scheme) (files.flatMap ParsedFile.records)
        (others.flatMap ParsedFile.records) := by
  refine List.rel_flatMap split (fun file other splits => ?_)
  rw [ParsedFile.records, ParsedFile.records]
  exact List.rel_map (fun block copy same => ⟨splits.path, same⟩) splits.blocks

end Graph

/-- Each item of paired lists has a partner. -/
theorem exists_of_mem_forall₂ {α β : Type} {R : α → β → Prop} {items : List α} {others : List β}
    (paired : List.Forall₂ R items others) {item : α} (member : item ∈ items)
    : ∃ other ∈ others, R item other := by
  induction paired with
  | nil => exact absurd member List.not_mem_nil
  | cons first _ ih =>
      rcases List.mem_cons.mp member with rfl | later
      · exact ⟨_, List.mem_cons_self, first⟩
      · obtain ⟨other, listed, related⟩ := ih later
        exact ⟨other, List.mem_cons_of_mem _ listed, related⟩

namespace Graph

/-- A graph of files in which references are split is split. -/
theorem splits_assemble {scheme : Scheme} (positive : scheme.idDigits ≠ 0)
    {files others : List ParsedFile}
    (split : List.Forall₂ ((assemble scheme files).SplitsFile scheme) files others)
    : (assemble scheme files).Splits (assemble scheme others) := by
  have owns := ownsAssertions_assemble scheme files
  have pairs := Intake.pairs_ofFiles (fun _ _ splits => splits.faces) (forall₂_records split)
  refine ⟨sameRoles_assemble pairs.offered, ?_, ?_⟩
  · intro edge member covers
    obtain ⟨record, accepted, reference, own, within, may⟩ :=
      exists_reference_of_covers member covers
    obtain ⟨other, acceptedOther, splits⟩ := exists_of_mem_forall₂ pairs.accepted accepted
    obtain ⟨copy, there, next, withinCopy, splitsEdge⟩ :=
      splits.exists_copy owns positive own may within
    obtain ⟨last, present, same⟩ := exists_edge_of_reference acceptedOther there withinCopy
    exact ⟨last, present, splitsEdge.congr (Edge.same_refl edge) same⟩
  · intro copy member covers
    obtain ⟨other, acceptedOther, reference, own, within, may⟩ :=
      exists_reference_of_covers member covers
    obtain ⟨record, accepted, splits⟩ := exists_of_mem_forall₂ pairs.accepted.flip acceptedOther
    obtain ⟨original, there, first, withinFirst, splitsEdge⟩ :=
      splits.exists_original owns positive own may within
    obtain ⟨last, present, same⟩ := exists_edge_of_reference accepted there withinFirst
    exact ⟨last, present, splitsEdge.congr same (Edge.same_refl copy)⟩

end Graph

end Traceability
