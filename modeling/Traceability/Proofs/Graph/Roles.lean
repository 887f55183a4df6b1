import Traceability.Proofs.Graph.Comparison
import Traceability.Proofs.Graph.Typing

/-! The roles that records give to nodes.
What a record declares a node for follows from the place and the content of its block. So records
that declare the same nodes for the same roles, one by one, are accepted alike, and the graphs
assembled from them agree on the roles of all nodes. Only assertions have letters, and each is
listed by the requirement that it names.
-/

namespace Traceability

/-- What a node stands for: its identifier with its role. -/
def Node.face (node : Node) : String × Role :=
  (node.id, node.role)

-----------------------------------------------------------------------------------------
-- The roles of declared nodes
-----------------------------------------------------------------------------------------

namespace Assembly

theorem role_requirementNode (path : String) (block : Block) (requirement : Requirement)
    : (requirementNode path block requirement).role
      = ⟨.requirement, requirement.assertions.map (fun assertion => assertion.letter.toString),
          none, none⟩ := by
  rw [Node.role, kind_requirementNode, letters_requirementNode]
  simp [requirementNode, Node.text?, Node.field_withField, Node.field_withText, FieldKey.title,
    FieldKey.level, FieldKey.status, FieldKey.hash, FieldKey.body, FieldKey.hasMetadata,
    FieldKey.implementsTargets, FieldKey.refinesTargets, FieldKey.addressesTargets,
    FieldKey.assertions, FieldKey.endMarker, FieldKey.endLine, FieldKey.requirement,
    FieldKey.label]

theorem role_assertionNode (path requirement : String) (assertion : Assertion)
    : (assertionNode path requirement assertion).role
      = ⟨.assertion, [], some requirement, some assertion.letter.toString⟩ := by
  rw [Node.role, requirement_assertionNode, label_assertionNode]
  simp [assertionNode, Node.list, Node.withField, FieldKey.requirement,
    FieldKey.label, FieldKey.text, FieldKey.assertions]

theorem role_journeyNode (path : String) (block : Block) (journey : Journey)
    : (journeyNode path block journey).role = ⟨.journey, [], none, none⟩ := by
  rw [Node.role, (journeyNode_parts path block journey).2]
  simp [journeyNode, Node.list, Node.text?, Node.field_withField, Node.field_withText,
    FieldKey.title, FieldKey.actor, FieldKey.goal, FieldKey.steps, FieldKey.requirement,
    FieldKey.label, FieldKey.assertions]

theorem role_referenceNode (kind : NodeKind) (path : String) (block : Block)
    (reference : Reference)
    : (referenceNode kind path block reference).role = ⟨kind, [], none, none⟩ := by
  simp [Node.role, referenceNode, Node.list, Node.text?, Node.withField, FieldKey.targets,
    FieldKey.requirement, FieldKey.label, FieldKey.assertions]

/-- Only assertions have letters. -/
theorem cases_of_mem_nodesOf {path : String} {block : Block} {entry : Node}
    (member : entry ∈ nodesOf path block)
    : (∃ requirement, block.content = .requirement requirement
        ∧ ∃ assertion ∈ requirement.assertions,
            entry = assertionNode path requirement.id assertion)
      ∨ entry.kind ≠ .assertion ∧ entry.role.letter? = none := by
  rw [nodesOf] at member
  split at member
  · next requirement content =>
      rcases List.mem_cons.mp member with rfl | lettered
      · rw [kind_requirementNode, role_requirementNode]
        exact Or.inr ⟨NodeKind.noConfusion, rfl⟩
      · obtain ⟨assertion, listed, rfl⟩ := List.mem_map.mp lettered
        exact Or.inl ⟨requirement, content, assertion, listed, rfl⟩
  · rw [List.mem_singleton.mp member, (journeyNode_parts path block _).2, role_journeyNode]
    exact Or.inr ⟨NodeKind.noConfusion, rfl⟩
  · rw [List.mem_singleton.mp member, role_referenceNode]
    exact Or.inr ⟨NodeKind.noConfusion, rfl⟩
  · rw [List.mem_singleton.mp member, role_referenceNode]
    exact Or.inr ⟨NodeKind.noConfusion, rfl⟩
  · exact absurd member List.not_mem_nil
  · exact absurd member List.not_mem_nil

end Assembly

-----------------------------------------------------------------------------------------
-- Records in pairs
-----------------------------------------------------------------------------------------

namespace Record

variable {record other : Record}

theorem ids_eq_of_faces (faces : other.nodes.map Node.face = record.nodes.map Node.face)
    : other.ids = record.ids := by
  have ids (any : Record) : any.ids = (any.nodes.map Node.face).map Prod.fst := by
    rw [List.map_map]
    rfl
  rw [ids, ids, faces]

theorem id_eq_of_faces (faces : other.nodes.map Node.face = record.nodes.map Node.face)
    {node copy : Node} (own : record.node? = some node) (ownOther : other.node? = some copy)
    : copy.id = node.id := by
  have first (any : Record) : any.ids.head? = any.node?.map Node.id := List.head?_map
  have same := (first other).symm.trans ((congrArg List.head? (ids_eq_of_faces faces)).trans
    (first record))
  rw [own, ownOther] at same
  exact Option.some.inj same

end Record

namespace Intake

/-- Related records were accepted, and nodes with the same faces were offered. -/
structure Pairs (related : Record → Record → Prop) (intake other : Intake) : Prop where
  accepted : List.Forall₂ related intake.accepted other.accepted
  offered : other.offered.map Node.face = intake.offered.map Node.face

variable {related : Record → Record → Prop}

/-- Related records are both accepted or both refused. -/
theorem Pairs.take
    (faces
      : ∀ record other, related record other →
          other.nodes.map Node.face = record.nodes.map Node.face)
    {intake next : Intake} (pairs : intake.Pairs related next) {record other : Record}
    (relates : related record other)
    : (intake.take record).Pairs related (next.take other) := by
  have own := faces record other relates
  have defined {accepted others : List Record} (matched : List.Forall₂ related accepted others)
      : others.flatMap Record.ids = accepted.flatMap Record.ids := by
    induction matched with
    | nil => rfl
    | cons first _ ih =>
        rw [List.flatMap_cons, List.flatMap_cons, ih, Record.ids_eq_of_faces (faces _ _ first)]
  have isNew : other.isNew next.accepted = record.isNew intake.accepted := by
    rw [Record.isNew, Record.isNew, defined pairs.accepted, Record.ids_eq_of_faces own]
  rw [Intake.take, Intake.take, isNew]
  split
  · refine ⟨List.rel_append pairs.accepted (.cons relates .nil), ?_⟩
    rw [List.map_append, List.map_append, pairs.offered, own]
  · refine ⟨pairs.accepted, ?_⟩
    rw [List.map_append, List.map_append, pairs.offered, List.map_take, own, List.map_take]

theorem pairs_ofFiles
    (faces
      : ∀ record other, related record other →
          other.nodes.map Node.face = record.nodes.map Node.face)
    {files others : List ParsedFile}
    (records
      : List.Forall₂ related (files.flatMap ParsedFile.records)
          (others.flatMap ParsedFile.records))
    : (ofFiles files).Pairs related (ofFiles others) :=
  List.rel_foldl (fun _ _ pairs _ _ relates => pairs.take faces relates) ⟨.nil, rfl⟩ records

end Intake

-----------------------------------------------------------------------------------------
-- Roles in assembled graphs
-----------------------------------------------------------------------------------------

namespace Graph

variable {scheme : Scheme} {files others : List ParsedFile}

/-- Graphs that were offered nodes with the same faces agree on roles. Witness: each keeps the
first node of an identifier. -/
theorem sameRoles_assemble
    (offered
      : (Intake.ofFiles others).offered.map Node.face
        = (Intake.ofFiles files).offered.map Node.face)
    : (assemble scheme files).SameRoles (assemble scheme others) := by
  have kept (files : List ParsedFile) (id : String)
      : ((assemble scheme files).node? id).map Node.role
        = (((Intake.ofFiles files).offered.map Node.face).find?
            (fun face => face.1 = id)).map Prod.snd := by
    have entry := (keeps_assemble scheme files).entries id
    rw [bare?] at entry
    rw [List.find?_map, Option.map_map, show (fun face : String × Role => decide (face.1 = id))
      ∘ Node.face = fun node => decide (node.id = id) from rfl, ← entry, Option.map_map]
    rfl
  intro id
  rw [kept, kept, offered]

/-- A requirement lists a letter, and the node under the identifier of its assertion is that
assertion. -/
structure HasAssertion (graph : Graph) (requirement : String) (letter : Char) : Prop where
  listed
    : ∃ node,
        graph.node? requirement = some node
        ∧ node.kind = .requirement
        ∧ letter.toString ∈ node.list FieldKey.assertions
  found
    : ∃ node,
        graph.node? (assertionId requirement letter.toString) = some node
        ∧ node.role = ⟨.assertion, [], some requirement, some letter.toString⟩

/-- Every assertion is that of a requirement. -/
def OwnsAssertions (graph : Graph) : Prop :=
  ∀ id node, graph.node? id = some node → node.kind = .assertion →
    ∃ requirement letter,
      id = assertionId requirement letter.toString ∧ graph.HasAssertion requirement letter

theorem SameRoles.hasAssertion {graph other : Graph} (same : graph.SameRoles other)
    {requirement : String} {letter : Char} (has : graph.HasAssertion requirement letter)
    : other.HasAssertion requirement letter := by
  obtain ⟨⟨node, listing, kind, listed⟩, ⟨assertion, found, role⟩⟩ := has
  obtain ⟨nodeCopy, listingCopy, nodeRole⟩ := same.exists_node listing
  obtain ⟨assertionCopy, foundCopy, assertionRole⟩ := same.exists_node found
  have letters : nodeCopy.list FieldKey.assertions = node.list FieldKey.assertions :=
    congrArg Role.letters nodeRole
  exact ⟨⟨nodeCopy, listingCopy, (congrArg Role.kind nodeRole).trans kind, letters ▸ listed⟩,
    assertionCopy, foundCopy, assertionRole.trans role⟩

/-- The assertions of an assembled graph are those of the requirements that they name. Witness: an
assertion is declared by the record of its requirement, and only once that is accepted. -/
theorem ownsAssertions_assemble (scheme : Scheme) (files : List ParsedFile)
    : (assemble scheme files).OwnsAssertions := by
  intro id node found kind
  obtain ⟨record, accepted, declared⟩ := exists_accepted_of_bare? (bare?_of_node? found)
  rcases Assembly.cases_of_mem_nodesOf declared with
    ⟨requirement, content, assertion, listed, same⟩ | ⟨other, -⟩
  · have isRequirement : record.requirement? = some requirement := by
      rw [Record.requirement?, content]
    have own := bare?_of_accepted scheme accepted (Record.node?_of_requirement? isRequirement)
    rw [Assembly.id_requirementNode] at own
    obtain ⟨entry, there, bare⟩ := bare?_eq_some_iff.mp own
    have role : entry.role = entry.bare.role := rfl
    rw [bare, Assembly.role_requirementNode] at role
    have letters : entry.list FieldKey.assertions
        = requirement.assertions.map (fun assertion => assertion.letter.toString) :=
      congrArg Role.letters role
    have isId : id = assertionId requirement.id assertion.letter.toString := by
      have bareId : node.bare.id = node.id := rfl
      rw [← id_of_node? found, ← bareId, same]
      rfl
    refine ⟨requirement.id, assertion.letter, isId, ⟨entry, there, congrArg Role.kind role, ?_⟩,
      node, isId ▸ found, ?_⟩
    · exact letters ▸ List.mem_map_of_mem listed
    · rw [show node.role = node.bare.role from rfl, same, Assembly.role_assertionNode]
  · exact absurd kind other

/-- Only assertions have letters. -/
theorem kind_of_letter {id letter : String} {node : Node}
    (found : (assemble scheme files).node? id = some node)
    (lettered : node.text? FieldKey.label = some letter)
    : node.kind = .assertion := by
  obtain ⟨record, accepted, declared⟩ := exists_accepted_of_bare? (bare?_of_node? found)
  have role : node.bare.role.letter? = some letter := lettered
  rcases Assembly.cases_of_mem_nodesOf declared with
    ⟨requirement, -, assertion, -, same⟩ | ⟨-, none⟩
  · have kind : node.bare.role.kind = .assertion := by
      rw [same, Assembly.role_assertionNode]
    exact kind
  · rw [none] at role
    cases role

end Graph

end Traceability
