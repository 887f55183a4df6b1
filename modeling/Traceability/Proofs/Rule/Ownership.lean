import Traceability.Proofs.Coverage.Definition
import Traceability.Proofs.Graph.Typing
import Traceability.Proofs.Rule.Structure

/-! What a requirement owns.
Its assertions can be found under the letters that it lists, by the requirement that they name, or
along its links. Each of these says the same, so the requirements under it are those that the rule
on hierarchies compares with it.
-/

namespace Traceability

namespace Graph

-----------------------------------------------------------------------------------------
-- Links to assertions
-----------------------------------------------------------------------------------------

/-- Every assertion is linked to the requirement that it names. -/
def Linked (graph : Graph) : Prop :=
  ∀ id entry, graph.bare? id = some entry → entry.kind = .assertion →
    ∃ edge ∈ graph.edges,
      edge.kind = .contains
      ∧ entry.text? FieldKey.requirement = some edge.source
      ∧ edge.target = id

/-- An edge that is added is there, as it is or as one that says the same. -/
theorem exists_same_addEdge (graph : Graph) (edge : Edge)
    : ∃ other ∈ (graph.addEdge edge).edges, Edge.same edge other = true := by
  obtain ⟨other, member, same⟩ :=
    @exists_same_of_mem_or graph.edges.toList [edge] edge (Or.inr (List.mem_singleton_self edge))
  rw [List.foldl_cons, List.foldl_nil, ← toList_edges_addEdge] at member
  exact ⟨other, Array.mem_toList_iff.mp member, same⟩

theorem linked_empty : ({} : Graph).Linked := by
  intro id entry found
  simp [bare?, node?] at found

variable {graph other : Graph}

/-- Further edges leave assertions linked. -/
theorem Linked.grow (linked : graph.Linked) (entries : ∀ id, other.bare? id = graph.bare? id)
    (edges : ∀ edge ∈ graph.edges, edge ∈ other.edges)
    : other.Linked := by
  intro id entry found kind
  obtain ⟨edge, member, link⟩ := linked id entry (entries id ▸ found) kind
  exact ⟨edge, edges edge member, link⟩

theorem Linked.addEdge (linked : graph.Linked) (edge : Edge) : (graph.addEdge edge).Linked :=
  linked.grow (bare?_addEdge graph edge) (fun _ => mem_edges_addEdge_of_mem)

theorem Linked.addNode (linked : graph.Linked) {node : Node} (plain : node.kind ≠ .assertion)
    : (graph.addNode node).Linked := by
  intro id entry found kind
  rw [edges_addNode]
  rcases bare?_addNode_cases found with old | rfl
  · exact linked id entry old kind
  · exact absurd kind plain

theorem Linked.addDuplicate (linked : graph.Linked) {node : Node}
    (taken : graph.contains node.id = true)
    : (graph.addNode node).Linked := by
  obtain ⟨existing, present⟩ := contains_iff.mp taken
  rw [Graph.addNode, present]
  exact linked.grow (fun _ => rfl) (fun _ member => member)

/-- An assertion comes with its link. -/
theorem Linked.addAssertion (linked : graph.Linked) (path requirement : String)
    (assertion : Assertion)
    : (Assembly.addAssertion path requirement graph assertion).Linked := by
  rw [Assembly.addAssertion]
  split
  · next taken => exact linked.addDuplicate taken
  · intro id entry found kind
    rw [bare?_addEdge] at found
    rcases bare?_addNode_cases found with old | rfl
    · obtain ⟨edge, member, link⟩ := linked id entry old kind
      exact ⟨edge, mem_edges_addEdge_of_mem (edges_addNode graph _ ▸ member), link⟩
    · obtain ⟨edge, member, same⟩ := exists_same_addEdge
        (graph.addNode (Assembly.assertionNode path requirement assertion))
        (Assembly.link requirement assertion)
      obtain ⟨source, target, isKind, -⟩ := Edge.same_iff.mp same
      refine ⟨edge, member, isKind.symm, ?_, ?_⟩
      · rw [← source]
        exact Assembly.requirement_assertionNode path requirement assertion
      · rw [← target, ← id_of_bare? found]
        rfl

theorem Linked.adds {path : String} {block : Block} (adds : Assembly.Adds path block graph other)
    (linked : graph.Linked)
    : other.Linked := by
  cases adds with
  | nothing => exact linked
  | duplicate taken => exact linked.addDuplicate taken
  | journey content =>
      refine linked.addNode ?_
      rw [(Assembly.journeyNode_parts path block _).2]
      exact NodeKind.noConfusion
  | reference content =>
      refine linked.addNode ?_
      rcases content with ⟨rfl, -⟩ | ⟨rfl, -⟩ <;> exact NodeKind.noConfusion
  | requirement content new =>
      refine List.foldlRecOn _ _ (linked.addNode ?_)
        (fun current here assertion _ => Linked.addAssertion here path _ assertion)
      rw [Assembly.kind_requirementNode]
      exact NodeKind.noConfusion

theorem linked_assemble (scheme : Scheme) (files : List ParsedFile)
    : (assemble scheme files).Linked := by
  refine Assembly.finish_induction ?_ (fun _ linked _ _ edge _ => linked.addEdge edge)
    (fun _ _ linked => linked)
  exact Assembly.foldl_addFile_induction linked_empty (fun _ _ _ linked => linked)
    (fun _ _ _ _ _ _ adds linked => linked.adds adds)

-----------------------------------------------------------------------------------------
-- Requirements and the assertions that they own
-----------------------------------------------------------------------------------------

section Sources

variable {scheme : Scheme} {sources : SourceSet} {owner : Node}

/-- What a requirement lists are the letters of any accepted record of its identifier. Witness: the
record is found under the identifier, so there is no other. -/
theorem letters_of_accepted (member : owner ∈ (ofSources scheme sources).requirements)
    {record : Record} (accepted : record ∈ acceptedRecords (sources.parsed scheme))
    {requirement : Requirement} (content : record.requirement? = some requirement)
    (named : requirement.id = owner.id)
    : owner.list FieldKey.assertions
      = requirement.assertions.map (fun assertion => assertion.letter.toString) := by
  obtain ⟨found, -⟩ := mem_nodesOfKind_iff.mp member
  obtain ⟨node, here, bare⟩ :=
    exists_node_of_accepted accepted (Record.node?_of_requirement? content)
  rw [Assembly.id_requirementNode, named, found, Option.some.injEq] at here
  rw [here, show node.list FieldKey.assertions = node.bare.list FieldKey.assertions from rfl, bare,
    Assembly.letters_requirementNode]

/-- The letter of an assertion that names a requirement is listed there. -/
theorem exists_letter_of_names (member : owner ∈ (ofSources scheme sources).requirements)
    {node : Node} (found : (ofSources scheme sources).node? node.id = some node)
    (kind : node.kind = .assertion)
    (names : node.text? FieldKey.requirement = some owner.id)
    : ∃ letter ∈ owner.list FieldKey.assertions, node.id = assertionId owner.id letter := by
  obtain ⟨record, accepted, declared⟩ := exists_accepted_of_bare? (bare?_of_node? found)
  rw [Record.nodes_eq, List.mem_append, Option.mem_toList] at declared
  have lettered : node.bare ∈ record.assertionNodes :=
    declared.resolve_left (fun own => Record.ne_assertion_of_node? own kind)
  obtain ⟨requirement, content, nodes⟩ := Record.exists_of_mem_assertionNodes lettered
  obtain ⟨assertion, listed, bare⟩ := List.mem_map.mp (nodes ▸ lettered)
  have named : requirement.id = owner.id := by
    have own := Assembly.requirement_assertionNode record.path requirement.id assertion
    rw [bare] at own
    exact Option.some.inj (own.symm.trans names)
  refine ⟨assertion.letter.toString, ?_, ?_⟩
  · rw [letters_of_accepted member accepted content named]
    exact List.mem_map_of_mem listed
  · rw [show node.id = node.bare.id from rfl, ← bare, ← named]
    rfl

/-- The assertions under the letters of a requirement are those that name it. -/
theorem mem_assertionsOf_iff (member : owner ∈ (ofSources scheme sources).requirements)
    {node : Node}
    : node ∈ (ofSources scheme sources).assertionsOf owner.id
      ↔ node ∈ (ofSources scheme sources).nodesOfKind .assertion
        ∧ node.text? FieldKey.requirement = some owner.id := by
  obtain ⟨found, -⟩ := mem_nodesOfKind_iff.mp member
  rw [assertionsOf, found, mem_nodesOfKind_iff, List.mem_filterMap]
  constructor
  · rintro ⟨letter, listed, here⟩
    obtain ⟨assertion, there, kind, names, -⟩ :=
      (faithful_ofSources scheme sources).exists_assertion member listed
    rw [here, Option.some.injEq] at there
    rw [there, ← there, id_of_node? here, here]
    exact ⟨⟨rfl, there ▸ kind⟩, there ▸ names⟩
  · rintro ⟨⟨here, kind⟩, names⟩
    obtain ⟨letter, listed, named⟩ := exists_letter_of_names member here kind names
    exact ⟨letter, listed, named ▸ here⟩

/-- A requirement is linked to the assertions that it lists, and to nothing else. -/
theorem exists_link_iff (member : owner ∈ (ofSources scheme sources).requirements) {id : String}
    : (∃ edge ∈ (ofSources scheme sources).outgoing owner.id,
        edge.kind = .contains ∧ edge.target = id)
      ↔ id ∈ ((ofSources scheme sources).assertionsOf owner.id).map Node.id := by
  have faithful := faithful_ofSources scheme sources
  obtain ⟨found, -⟩ := mem_nodesOfKind_iff.mp member
  constructor
  · intro ⟨edge, leaves, kind, target⟩
    obtain ⟨present, source⟩ := faithful.assembled.wired.mem_outgoing_iff.mp leaves
    obtain ⟨record, accepted, link | ⟨reference, own, within⟩⟩ := exists_record_of_mem_edges present
    · rw [Record.links, Assembly.linksOf] at link
      split at link
      · next requirement content =>
          obtain ⟨assertion, listed, rfl⟩ := List.mem_map.mp link
          have named : requirement.id = owner.id := source
          have isRequirement : record.requirement? = some requirement := by
            rw [Record.requirement?, content]
          have letter : assertion.letter.toString ∈ owner.list FieldKey.assertions := by
            rw [letters_of_accepted member accepted isRequirement named]
            exact List.mem_map_of_mem listed
          obtain ⟨node, here, -⟩ := faithful.exists_assertion member letter
          have own : node.id = id := by
            rw [id_of_node? here, ← target, ← named]
            rfl
          rw [← own, assertionsOf, found]
          exact List.mem_map_of_mem (List.mem_filterMap.mpr ⟨_, letter, here⟩)
      · exact absurd link List.not_mem_nil
    · -- No reference is a link.
      rw [(PendingReference.cases_of_mem_edges within).1] at kind
      rcases Record.reference_cases own with ⟨_, _, _, listed⟩ | ⟨_, _, _, _, plain, _⟩
      · exact absurd kind (Requirement.kind_of_mem_targets listed).2.1
      · exact absurd kind plain
  · intro listed
    obtain ⟨node, owned, rfl⟩ := List.mem_map.mp listed
    obtain ⟨isAssertion, names⟩ := (mem_assertionsOf_iff member).mp owned
    obtain ⟨here, kind⟩ := mem_nodesOfKind_iff.mp isAssertion
    obtain ⟨edge, present, isLink, named, target⟩ :=
      linked_assemble scheme _ node.id node.bare (bare?_of_node? here) kind
    have source : edge.source = owner.id := Option.some.inj (named.symm.trans names)
    exact ⟨edge, faithful.assembled.wired.mem_outgoing_iff.mpr ⟨present, source⟩, isLink, target⟩

-----------------------------------------------------------------------------------------
-- The requirements under a requirement
-----------------------------------------------------------------------------------------

/-- What is under a requirement belongs to its owner. -/
theorem owner?_iff_mem_idAndAssertions
    (member : owner ∈ (ofSources scheme sources).requirements) {id : String}
    : (ofSources scheme sources).owner? id = some owner
      ↔ id ∈ (ofSources scheme sources).idAndAssertions owner.id := by
  rw [(faithful_ofSources scheme sources).assembled.owner?_eq_some_iff, and_iff_right member,
    idAndAssertions, List.mem_cons, List.mem_map]
  refine or_congr_right ?_
  simp only [mem_assertionsOf_iff member, mem_nodesOfKind_iff]
  constructor
  · intro ⟨node, found, kind, names⟩
    have own := id_of_node? found
    exact ⟨node, ⟨⟨own.symm ▸ found, kind⟩, names⟩, own⟩
  · intro ⟨node, ⟨⟨found, kind⟩, names⟩, own⟩
    exact ⟨node, own ▸ found, kind, names⟩

theorem contains_of_mem_idAndAssertions
    (member : owner ∈ (ofSources scheme sources).requirements) {id : String}
    (listed : id ∈ (ofSources scheme sources).idAndAssertions owner.id)
    : (ofSources scheme sources).contains id = true := by
  have owned := (owner?_iff_mem_idAndAssertions member).mpr listed
  rw [contains_iff]
  unfold owner? at owned
  split at owned
  · exact absurd owned (by simp)
  · next node found => exact ⟨node, found⟩

/-- The nodes under a list of identifiers carry those that are present. -/
theorem map_id_filterMap_node? (graph : Graph) (ids : List String)
    : (ids.filterMap graph.node?).map Node.id = ids.filter graph.contains := by
  induction ids with
  | nil => rfl
  | cons id rest ih =>
      rw [List.filterMap_cons, List.filter_cons]
      cases found : graph.node? id with
      | none =>
          rw [if_neg (fun present => ?_), ih]
          obtain ⟨node, here⟩ := contains_iff.mp present
          rw [found] at here
          cases here
      | some node =>
          rw [if_pos (contains_iff.mpr ⟨node, found⟩), List.map_cons, ih, id_of_node? found]

theorem nodup_childrenOf (graph : Graph) (id : String)
    : ((graph.childrenOf id).map Node.id).Nodup := by
  rw [childrenOf, map_id_filterMap_node?]
  exact (nodup_eraseDups _).filter _

/-- A requirement is under another if one of its edges leads to what the other owns. -/
theorem mem_childrenOf_iff (member : owner ∈ (ofSources scheme sources).requirements)
    {child : Node}
    : child ∈ (ofSources scheme sources).childrenOf owner.id
      ↔ child ∈ (ofSources scheme sources).requirements
        ∧ ∃ edge ∈ (ofSources scheme sources).outgoing child.id,
            edge.kind.isParentage = true
            ∧ edge.target ∈ (ofSources scheme sources).idAndAssertions owner.id := by
  have faithful := faithful_ofSources scheme sources
  simp only [childrenOf, List.mem_filterMap, List.mem_eraseDups, List.mem_map, List.mem_filter,
    List.mem_flatMap, Bool.and_eq_true, requirements, mem_nodesOfKind_iff,
    faithful.assembled.wired.mem_outgoing_iff]
  constructor
  · intro ⟨id, ⟨edge, ⟨⟨target, listed, arrives⟩, parentage, isRequirement⟩, source⟩, found⟩
    obtain ⟨present, rfl⟩ := (faithful.attached.mem_incoming_iff
      (contains_of_mem_idAndAssertions member listed)).mp arrives
    obtain ⟨node, here, kind⟩ := isRequirement_iff.mp isRequirement
    rw [source, found, Option.some.injEq] at here
    have own := id_of_node? found
    exact ⟨⟨own.symm ▸ found, here ▸ kind⟩, edge, ⟨present, source.trans own.symm⟩, parentage,
      listed⟩
  · intro ⟨⟨found, kind⟩, edge, ⟨present, source⟩, parentage, listed⟩
    refine ⟨child.id, ⟨edge, ⟨⟨edge.target, listed, ?_⟩, parentage, ?_⟩, source⟩, found⟩
    · exact (faithful.attached.mem_incoming_iff
        (contains_of_mem_idAndAssertions member listed)).mpr ⟨present, rfl⟩
    · exact isRequirement_iff.mpr ⟨child, source ▸ found, kind⟩

theorem isRequirement_of_mem_parents {child : Node} {kind : EdgeKind}
    (parent : (kind, owner) ∈ Rule.Hierarchy.parents (ofSources scheme sources) child)
    : owner ∈ (ofSources scheme sources).requirements := by
  have assembled := (faithful_ofSources scheme sources).assembled
  obtain ⟨edge, -, -, -, owned⟩ :=
    (Rule.Hierarchy.exists_mem_parents_iff assembled.wired).mp ⟨kind, parent⟩
  exact (assembled.owner?_eq_some_iff.mp owned).1

/-- The rule on hierarchies compares a requirement with those that it is under. -/
theorem exists_mem_parents_iff_mem_childrenOf
    (member : owner ∈ (ofSources scheme sources).requirements) {child : Node}
    : child ∈ (ofSources scheme sources).childrenOf owner.id
      ↔ child ∈ (ofSources scheme sources).requirements
        ∧ ∃ kind, (kind, owner) ∈ Rule.Hierarchy.parents (ofSources scheme sources) child := by
  have wired := (faithful_ofSources scheme sources).assembled.wired
  rw [mem_childrenOf_iff member, Rule.Hierarchy.exists_mem_parents_iff wired]
  simp only [wired.mem_outgoing_iff, owner?_iff_mem_idAndAssertions member, and_assoc]

end Sources

/-- The views of what a requirement owns agree: its letters, the requirement that assertions name,
and its links; the requirements under it, and those for which a rule takes it as a parent. -/
structure OwnershipAgrees (graph : Graph) (owner : Node) : Prop where
  named
    : ∀ node,
        node ∈ graph.assertionsOf owner.id
        ↔ node ∈ graph.nodesOfKind .assertion
          ∧ node.text? FieldKey.requirement = some owner.id
  linked
    : ∀ id,
        id ∈ (graph.assertionsOf owner.id).map Node.id
        ↔ ∃ edge ∈ graph.outgoing owner.id, edge.kind = .contains ∧ edge.target = id
  owned
    : ∀ id,
        graph.owner? id = some owner
        ↔ id = owner.id ∨ id ∈ (graph.assertionsOf owner.id).map Node.id
  childrenOnce : ((graph.childrenOf owner.id).map Node.id).Nodup
  children
    : ∀ node,
        node ∈ graph.childrenOf owner.id
        ↔ node ∈ graph.requirements
          ∧ ∃ edge ∈ graph.outgoing node.id,
              (edge.kind = .implements ∨ edge.kind = .refines)
              ∧ (edge.target = owner.id
                ∨ edge.target ∈ (graph.assertionsOf owner.id).map Node.id)
  parents
    : ∀ node,
        node ∈ graph.childrenOf owner.id
        ↔ node ∈ graph.requirements
          ∧ ∃ kind, (kind, owner) ∈ Rule.Hierarchy.parents graph node

end Graph

namespace Rule

/-- A finding on the hierarchy is about a requirement with a level and one of its parents. -/
theorem mem_hierarchy_iff {context : RuleContext} {finding : Finding}
    : finding ∈ hierarchy.check context
      ↔ ∃ node ∈ context.graph.requirements, ∃ level,
          context.scheme.levelOf? node = some level
          ∧ ∃ kind parent,
              (kind, parent) ∈ Hierarchy.parents context.graph node
              ∧ Hierarchy.finding? context.scheme node level kind parent = some finding := by
  rw [hierarchy, List.mem_flatMap]
  refine exists_congr (fun node => and_congr_right (fun _ => ?_))
  cases known : context.scheme.levelOf? node with
  | none => simp
  | some level => simp [List.mem_filterMap]

end Rule

namespace Graph

/-- In the graph of any files the views of ownership agree for every requirement, whatever letters
it lists and however often it is defined. The findings of the rule on hierarchies are between
requirements and those under them. -/
theorem ownership_agrees (scheme : Scheme) (sources : SourceSet)
    : (∀ owner ∈ (ofSources scheme sources).requirements,
        (ofSources scheme sources).OwnershipAgrees owner)
      ∧ ∀ (levels : Scheme) (coverage : CoverageReport) (finding : Finding),
          finding
              ∈ Rule.hierarchy.check
                  { graph := ofSources scheme sources, scheme := levels, coverage }
          ↔ ∃ owner ∈ (ofSources scheme sources).requirements,
              ∃ child ∈ (ofSources scheme sources).childrenOf owner.id, ∃ level kind,
                levels.levelOf? child = some level
                ∧ (kind, owner) ∈ Rule.Hierarchy.parents (ofSources scheme sources) child
                ∧ Rule.Hierarchy.finding? levels child level kind owner = some finding := by
  refine ⟨fun owner member => ?_, fun levels coverage finding => ?_⟩
  · constructor
    · exact fun _ => mem_assertionsOf_iff member
    · exact fun _ => (exists_link_iff member).symm
    · exact fun _ => (owner?_iff_mem_idAndAssertions member).trans List.mem_cons
    · exact nodup_childrenOf _ _
    · intro node
      simp only [mem_childrenOf_iff member, EdgeKind.isParentage_iff, idAndAssertions,
        List.mem_cons]
    · exact fun _ => exists_mem_parents_iff_mem_childrenOf member
  · rw [Rule.mem_hierarchy_iff]
    constructor
    · intro ⟨child, isChild, level, known, kind, owner, parent, found⟩
      have member := isRequirement_of_mem_parents parent
      exact ⟨owner, member, child,
        (exists_mem_parents_iff_mem_childrenOf member).mpr ⟨isChild, kind, parent⟩,
        level, kind, known, parent, found⟩
    · intro ⟨owner, member, child, under, level, kind, known, parent, found⟩
      have isChild := ((exists_mem_parents_iff_mem_childrenOf member).mp under).1
      exact ⟨child, isChild, level, known, kind, owner, parent, found⟩

/-- A requirement with a gap and a repeat among its letters, which another file defines again with
further letters, and a requirement under one of its assertions and under itself. -/
def gappedLetters : SourceSet where
  files := [
    ⟨"login.md", "# REQ-p00001: Login\nA. Ask.\nC. Tell.\nA. Ask again.\n*End* *Login*\n"⟩,
    ⟨"again.md", "# REQ-p00001: Login\nB. Wait.\n*End* *Login*\n"⟩,
    ⟨"form.md", "# REQ-d00001: Form\n"
      ++ "**Level**: DEV | **Implements**: REQ-p00001-C, REQ-p00001\n*End* *Form*\n"⟩]

theorem ownership_agrees_gappedLetters
    : ∃ owner ∈ (ofSources Config.defaultScheme gappedLetters).requirements,
        owner.id = "REQ-p00001"
        ∧ owner.list FieldKey.assertions = ["A", "C", "A"]
        ∧ ((ofSources Config.defaultScheme gappedLetters).childrenOf owner.id).map Node.id
          = ["REQ-d00001"]
        ∧ (ofSources Config.defaultScheme gappedLetters).OwnershipAgrees owner := by
  have evaluated
      : ∃ owner ∈ (ofSources Config.defaultScheme gappedLetters).requirements,
          owner.id = "REQ-p00001"
          ∧ owner.list FieldKey.assertions = ["A", "C", "A"]
          ∧ ((ofSources Config.defaultScheme gappedLetters).childrenOf owner.id).map Node.id
            = ["REQ-d00001"] := by
    decide +kernel
  obtain ⟨owner, member, id, letters, children⟩ := evaluated
  exact ⟨owner, member, id, letters, children,
    (ownership_agrees Config.defaultScheme gappedLetters).1 owner member⟩

end Graph

end Traceability
