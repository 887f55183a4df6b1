import Traceability.Proofs.Claim.Standard
import Traceability.Proofs.Graph.Blocks
import Traceability.Proofs.Scheme.Identifier
import Traceability.Run

/-! Assertions are found under their letters.
The identifier of an assertion is made of that of its requirement and a letter, and no node of
another kind carries such an identifier. So each letter that a requirement lists leads to an
assertion that names the requirement and the letter, even where an identifier is defined twice.
An edge that names a letter of its own never targets an assertion.
-/

namespace Traceability

-----------------------------------------------------------------------------------------
-- The identifiers that blocks declare
-----------------------------------------------------------------------------------------

/-- The identifiers in a block have the form of their kind. -/
structure Block.WellNamed (scheme : Scheme) (block : Block) : Prop where
  requirement
    : ∀ requirement, block.content = .requirement requirement → scheme.IsId requirement.id
  journey : ∀ journey, block.content = .journey journey → EndsInDigit journey.id

theorem Registry.wellNamed_of_mem_blocks {context : ClaimContext} {lines : List Line}
    {block : Block} (member : block ∈ standard.blocks context lines)
    : block.WellNamed context.scheme := by
  obtain ⟨claimant, known, free, -, claimed⟩ := mem_blocks_claim member
  constructor
  · intro requirement content
    obtain ⟨heading, inner, last, ⟨text, headed⟩, -, -, -, rfl⟩ :=
      Claim.requirement_of_mem_claim known claimed content
    exact Heading.isId_of_requirement? headed
  · intro journey content
    obtain ⟨heading, inner, ⟨text, headed⟩, rfl⟩ :=
      Claim.journey_of_mem_claim known claimed content
    exact Heading.endsInDigit_of_journey? headed

namespace Assembly

theorem id_journeyNode (path : String) (block : Block) (journey : Journey)
    : (journeyNode path block journey).id = journey.id := by
  rw [journeyNode]
  simp only [Node.withText, Node.withField]
  split <;> split <;> rfl

theorem source_journeyNode (path : String) (block : Block) (journey : Journey)
    : (journeyNode path block journey).source = ⟨path, block.startLine, block.endLine⟩ := by
  rw [journeyNode]
  simp only [Node.withText, Node.withField]
  split <;> split <;> rfl

/-- The identifier of a reference ends with the number of a line. -/
theorem endsInDigit_referenceNode (kind : NodeKind) (path : String) (block : Block)
    (reference : Reference)
    : EndsInDigit (referenceNode kind path block reference).id := by
  have number
      : Nat.toDigits 10 block.startLine
        <:+ (referenceNode kind path block reference).id.toList :=
    ⟨(kind.word ++ ":" ++ (path ++ ":")).toList,
      by simp [referenceNode, Node.withField, String.toList_append]⟩
  refine endsInDigit_of_suffix number Nat.toDigits_ne_nil (fun c member => ?_)
  exact Text.isDecimalDigit_of_isDigit
    (Nat.isDigit_of_mem_toDigits (by decide) (by decide) member)

/-- Only assertions carry identifiers of assertions. -/
theorem eq_assertionNode_of_mem_nodesOf {scheme : Scheme} {path : String} {block : Block}
    (named : block.WellNamed scheme) {entry : Node} (member : entry ∈ nodesOf path block)
    {owner : String} (isId : scheme.IsId owner) {letter : Char} (upper : letter.isUpper = true)
    (same : entry.id = assertionId owner letter.toString)
    : ∃ assertion : Assertion,
        assertion.letter = letter ∧ entry = assertionNode path owner assertion := by
  have noDigit := not_endsInDigit_assertionId owner upper
  rw [nodesOf] at member
  split at member
  · next requirement content =>
      have own := named.requirement requirement content
      rcases List.mem_cons.mp member with rfl | lettered
      · rw [id_requirementNode] at same
        exact absurd (same ▸ own) (Scheme.not_isId_assertionId isId letter)
      · obtain ⟨assertion, -, rfl⟩ := List.mem_map.mp lettered
        obtain ⟨rfl, here⟩ := assertionId_inj.mp same
        exact ⟨assertion, here, rfl⟩
  · next journey content =>
      rw [List.mem_singleton.mp member, id_journeyNode] at same
      exact absurd (same ▸ named.journey journey content) noDigit
  · rw [List.mem_singleton.mp member] at same
    exact absurd (same ▸ endsInDigit_referenceNode _ path block _) noDigit
  · rw [List.mem_singleton.mp member] at same
    exact absurd (same ▸ endsInDigit_referenceNode _ path block _) noDigit
  · exact absurd member List.not_mem_nil
  · exact absurd member List.not_mem_nil

end Assembly

-----------------------------------------------------------------------------------------
-- Lettered graphs
-----------------------------------------------------------------------------------------

namespace Graph

/-- Every letter that a requirement lists has a node. -/
def Listed (graph : Graph) : Prop :=
  ∀ id entry, graph.bare? id = some entry → entry.kind = .requirement →
    ∀ letter ∈ entry.list FieldKey.assertions, graph.contains (assertionId id letter) = true

/-- Requirements are named as such, the letters that they list have nodes, and a node under the
identifier of an assertion is that assertion. -/
structure Lettered (scheme : Scheme) (graph : Graph) : Prop where
  named
    : ∀ id entry, graph.bare? id = some entry → entry.kind = .requirement → scheme.IsId id
  listed : graph.Listed
  separate
    : ∀ (owner : String) (letter : Char), scheme.IsId owner → letter.isUpper = true →
        ∀ entry, graph.bare? (assertionId owner letter.toString) = some entry →
          entry.kind = .assertion
          ∧ entry.text? FieldKey.requirement = some owner
          ∧ entry.text? FieldKey.label = some letter.toString

theorem id_of_bare? {graph : Graph} {id : String} {entry : Node}
    (found : graph.bare? id = some entry)
    : entry.id = id := by
  obtain ⟨node, here, rfl⟩ := bare?_eq_some_iff.mp found
  exact show node.id = id from id_of_node? here

theorem listed_empty : ({} : Graph).Listed := by
  intro id entry found
  simp [bare?, node?] at found

/-- A node that is no requirement lists nothing of its own. -/
theorem Listed.addNode {graph : Graph} (listed : graph.Listed) {node : Node}
    (other : node.kind ≠ .requirement)
    : (graph.addNode node).Listed := by
  intro id entry found kind letter member
  rcases bare?_addNode_cases found with old | rfl
  · exact contains_addNode.mpr (Or.inl (listed id entry old kind letter member))
  · exact absurd kind other

theorem Listed.congr {graph other : Graph} (listed : graph.Listed)
    (same : ∀ id, other.bare? id = graph.bare? id)
    : other.Listed := by
  intro id entry found kind letter member
  rw [contains_iff_bare?, same, ← contains_iff_bare?]
  exact listed id entry (same id ▸ found) kind letter member

/-- A block keeps the letters listed, as a requirement that is new brings its assertions along. -/
theorem Listed.adds {path : String} {block : Block} {graph next : Graph}
    (adds : Assembly.Adds path block graph next) (listed : graph.Listed)
    : next.Listed := by
  cases adds with
  | nothing => exact listed
  | duplicate taken =>
      obtain ⟨existing, present⟩ := contains_iff.mp taken
      rw [Graph.addNode, present]
      exact listed.congr (fun _ => rfl)
  | journey content =>
      refine listed.addNode ?_
      rw [(Assembly.journeyNode_parts path block _).2]
      exact NodeKind.noConfusion
  | reference content =>
      refine listed.addNode ?_
      rcases content with ⟨rfl, -⟩ | ⟨rfl, -⟩ <;> exact NodeKind.noConfusion
  | @requirement requirement content new =>
      intro id entry found kind letter member
      rcases Assembly.bare?_foldl_addAssertion _ found with here | ⟨assertion, -, rfl⟩
      · have same := id_of_bare? here
        rcases bare?_addNode_cases here with old | own
        · refine Assembly.contains_foldl_addAssertion _ (contains_addNode.mpr (Or.inl ?_))
          exact listed id entry old kind letter member
        · rw [← own, Assembly.bare_requirementNode] at member same
          rw [Assembly.letters_requirementNode] at member
          rw [Assembly.id_requirementNode] at same
          obtain ⟨assertion, own, rfl⟩ := List.mem_map.mp member
          exact same ▸ Assembly.contains_foldl_addAssertion_of_mem own _
      · exact absurd kind NodeKind.noConfusion

/-- Only the entries of nodes matter. -/
theorem Lettered.congr {scheme : Scheme} {graph other : Graph} (lettered : graph.Lettered scheme)
    (same : ∀ id, other.bare? id = graph.bare? id)
    : other.Lettered scheme where
  named id entry found := lettered.named id entry (same id ▸ found)
  listed := lettered.listed.congr same
  separate owner letter isId upper entry found :=
    lettered.separate owner letter isId upper entry (same _ ▸ found)

/-- Every graph that is assembled from blocks with identifiers of the right form is lettered. -/
theorem lettered_assemble {scheme : Scheme} {files : List ParsedFile}
    (named : ∀ file ∈ files, ∀ block ∈ file.blocks, block.WellNamed scheme)
    : (Graph.assemble scheme files).Lettered scheme where
  named id entry found kind := by
    obtain ⟨file, member, block, own, declared⟩ := exists_block found
    obtain ⟨requirement, content, rfl⟩ := Assembly.requirement_of_mem_nodesOf declared kind
    rw [← id_of_bare? found, Assembly.id_requirementNode]
    exact (named file member block own).requirement requirement content
  listed := by
    have nodes : (files.foldl Assembly.addFile {}).graph.Listed :=
      Assembly.foldl_addFile_induction listed_empty (fun _ _ _ listed => listed)
        (fun _ _ _ _ _ _ adds listed => listed.adds adds)
    exact nodes.congr (bare?_finish scheme _)
  separate owner letter isId upper entry found := by
    obtain ⟨file, member, block, own, declared⟩ := exists_block found
    obtain ⟨assertion, rfl, rfl⟩ := Assembly.eq_assertionNode_of_mem_nodesOf
      (named file member block own) declared isId upper (id_of_bare? found)
    exact ⟨rfl, Assembly.requirement_assertionNode file.path owner assertion,
      Assembly.label_assertionNode file.path owner assertion⟩

/-- The assertions that the standard registry reads carry capital letters. -/
theorem assembled_ofSources (scheme : Scheme) (sources : SourceSet)
    : (Graph.ofSources scheme sources).Assembled
      ∧ (Graph.ofSources scheme sources).DistinctLetters := by
  refine Graph.assembled_assemble scheme _ (fun file member block own => ?_)
  obtain ⟨source, -, rfl⟩ := List.mem_map.mp member
  obtain ⟨claimant, known, free, -, claimed⟩ := Registry.mem_blocks_claim own
  intro requirement content assertion listed
  obtain ⟨heading, inner, last, -, -, -, -, rfl⟩ :=
    Claim.requirement_of_mem_claim known claimed content
  exact Claim.Requirement.isUpper_of_mem_assertions listed

theorem lettered_ofSources (scheme : Scheme) (sources : SourceSet)
    : (Graph.ofSources scheme sources).Lettered scheme := by
  refine lettered_assemble (fun file member block own => ?_)
  obtain ⟨source, -, rfl⟩ := List.mem_map.mp member
  exact Registry.wellNamed_of_mem_blocks own

end Graph

-----------------------------------------------------------------------------------------
-- The letters that edges name
-----------------------------------------------------------------------------------------

namespace PendingReference

/-- An edge of a reference has its kind. It points at what is written, or at the requirement of
which the reference names several assertions, with one of the letters. -/
theorem cases_of_mem_edges {scheme : Scheme} {reference : PendingReference} {edge : Edge}
    (member : edge ∈ reference.edges scheme)
    : edge.kind = reference.kind
      ∧ (edge.letters = [] ∧ edge.target = reference.target
        ∨ reference.kind ≠ .addresses
          ∧ (∃ letter, edge.letters = [letter])
          ∧ scheme.IsId edge.target) := by
  simp only [edges] at member
  by_cases journey : reference.kind = .addresses
  · simp only [if_pos journey, List.length_nil, zero_le, if_true, List.mem_singleton] at member
    exact member ▸ ⟨rfl, Or.inl ⟨rfl, rfl⟩⟩
  · rw [if_neg journey] at member
    split at member
    · rw [List.mem_singleton.mp member]
      exact ⟨rfl, Or.inl ⟨rfl, rfl⟩⟩
    · next several =>
        obtain ⟨letter, -, rfl⟩ := List.mem_map.mp member
        refine ⟨rfl, Or.inr ⟨journey, ⟨letter.toString, rfl⟩, ?_⟩⟩
        cases parsed : scheme.parseId? reference.target with
        | none => simp [parsed] at several
        | some parts => exact Scheme.isId_of_parseId? parsed

end PendingReference

namespace Graph

/-- What holds of the edges to assertions and of those of references holds of every edge of an
assembled graph. -/
theorem forall_edges_assemble {scheme : Scheme} {files : List ParsedFile} {P : Edge → Prop}
    (contains
      : ∀ (requirement id : String) (line : Nat),
          P { source := requirement, target := id, kind := .contains, line })
    (reference : ∀ reference : PendingReference, ∀ edge ∈ reference.edges scheme, P edge)
    : ∀ edge ∈ (Graph.assemble scheme files).edges, P edge := by
  have insert {graph : Graph} {edge : Edge} (all : ∀ edge ∈ graph.edges, P edge) (own : P edge)
      : ∀ other ∈ (graph.addEdge edge).edges, P other := by
    intro other member
    rcases mem_edges_addEdge member with old | rfl
    · exact all other old
    · exact own
  have assertions {path requirement : String} (list : List Assertion) {graph : Graph}
      (all : ∀ edge ∈ graph.edges, P edge)
      : ∀ edge ∈ (list.foldl (Assembly.addAssertion path requirement) graph).edges, P edge := by
    refine List.foldlRecOn (motive := fun graph : Graph => ∀ edge ∈ graph.edges, P edge) list _
      all (fun graph all assertion _ => ?_)
    rw [Assembly.addAssertion]
    split
    · rw [edges_addNode]
      exact all
    · refine insert ?_ (contains _ _ _)
      rw [edges_addNode]
      exact all
  refine Assembly.finish_induction (motive := fun graph => ∀ edge ∈ graph.edges, P edge) ?_
    (fun _ all waiting _ edge own => insert all (reference waiting edge own))
    (fun _ _ all => all)
  refine Assembly.foldl_addFile_induction (motive := fun graph => ∀ edge ∈ graph.edges, P edge)
    (by simp) (fun _ _ _ all => all) ?_
  intro file _ block _ graph next adds all
  cases adds with
  | nothing => exact all
  | duplicate taken =>
      rw [edges_addNode]
      exact all
  | journey content =>
      rw [edges_addNode]
      exact all
  | reference content =>
      rw [edges_addNode]
      exact all
  | requirement content new =>
      refine assertions _ ?_
      rw [edges_addNode]
      exact all

/-- Every edge names at most one letter, and one that names a letter targets what has the form of
a requirement identifier. -/
def NamesLetters (scheme : Scheme) (graph : Graph) : Prop :=
  ∀ edge ∈ graph.edges,
    edge.letters = [] ∨ (∃ letter, edge.letters = [letter]) ∧ scheme.IsId edge.target

theorem namesLetters_assemble (scheme : Scheme) (files : List ParsedFile)
    : (Graph.assemble scheme files).NamesLetters scheme := by
  refine forall_edges_assemble (fun _ _ _ => Or.inl rfl) (fun reference edge member => ?_)
  obtain ⟨-, ⟨whole, -⟩ | ⟨-, lettered, isId⟩⟩ := PendingReference.cases_of_mem_edges member
  · exact Or.inl whole
  · exact Or.inr ⟨lettered, isId⟩

end Graph

end Traceability
