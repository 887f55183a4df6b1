import Traceability.Proofs.Graph.Insertion

/-! What holds of every assembled graph.
A requirement that is new brings its assertions along, and a letter that it repeats is recorded
as a duplicate. References wait until all nodes exist, so the source of every edge is present.
-/

namespace Traceability

-----------------------------------------------------------------------------------------
-- Attributes of nodes
-----------------------------------------------------------------------------------------

namespace Node

theorem field_withField (node : Node) (key : String) (value : FieldValue) (other : String)
    : (node.withField key value).fields[other]?
      = if key = other then some value else node.fields[other]? := by
  simp [withField, Std.ExtTreeMap.getElem?_insert]

theorem field_withText (node : Node) (key : String) (text : Option String) (other : String)
    : (node.withText key text).fields[other]?
      = if key = other then (text.map FieldValue.text).or node.fields[other]?
        else node.fields[other]? := by
  cases text with
  | none => simp [withText]
  | some s => simp [withText, field_withField]

/-- An attribute is all that a node gains. -/
theorem withText_eq (node : Node) (key : String) (text : Option String)
    : ∃ fields, node.withText key text = { node with fields } := by
  cases text with
  | none => exact ⟨node.fields, rfl⟩
  | some s => exact ⟨_, rfl⟩

end Node

namespace Assembly

/-- The node of a requirement is new to all edges. -/
theorem requirementNode_eq (path : String) (block : Block) (requirement : Requirement)
    : ∃ fields,
        requirementNode path block requirement
          = { id := requirement.id
              kind := .requirement
              label := requirement.title
              source := ⟨path, block.startLine, block.endLine⟩
              fields } := by
  let titled : Node :=
    { id := requirement.id
      kind := .requirement
      label := requirement.title
      source := ⟨path, block.startLine, block.endLine⟩
      fields := (∅ : Fields).insert FieldKey.title (.text requirement.title) }
  obtain ⟨first, level⟩ := titled.withText_eq FieldKey.level requirement.level
  obtain ⟨second, status⟩ :=
    ({ titled with fields := first } : Node).withText_eq FieldKey.status requirement.status
  obtain ⟨third, hash⟩ :=
    ({ titled with fields := second } : Node).withText_eq FieldKey.hash requirement.storedHash
  simp only [requirementNode]
  rw [show Node.withField _ FieldKey.title (.text requirement.title) = titled from rfl, level,
    status, hash]
  exact ⟨_, rfl⟩

theorem id_requirementNode (path : String) (block : Block) (requirement : Requirement)
    : (requirementNode path block requirement).id = requirement.id := by
  obtain ⟨fields, same⟩ := requirementNode_eq path block requirement
  rw [same]

theorem kind_requirementNode (path : String) (block : Block) (requirement : Requirement)
    : (requirementNode path block requirement).kind = .requirement := by
  obtain ⟨fields, same⟩ := requirementNode_eq path block requirement
  rw [same]

theorem source_requirementNode (path : String) (block : Block) (requirement : Requirement)
    : (requirementNode path block requirement).source = ⟨path, block.startLine, block.endLine⟩ := by
  obtain ⟨fields, same⟩ := requirementNode_eq path block requirement
  rw [same]

theorem bare_requirementNode (path : String) (block : Block) (requirement : Requirement)
    : (requirementNode path block requirement).bare = requirementNode path block requirement := by
  obtain ⟨fields, same⟩ := requirementNode_eq path block requirement
  rw [same]
  rfl

theorem letters_requirementNode (path : String) (block : Block) (requirement : Requirement)
    : (requirementNode path block requirement).list FieldKey.assertions
      = requirement.assertions.map (fun assertion => assertion.letter.toString) := by
  simp [requirementNode, Node.list, Node.field_withField, FieldKey.assertions,
    FieldKey.endLine, FieldKey.endMarker]

theorem marker_requirementNode (path : String) (block : Block)
    (requirement : Requirement)
    : (requirementNode path block requirement).fields[FieldKey.endMarker]?
      = some (.text requirement.endMarker) := by
  simp [requirementNode, Node.field_withField, FieldKey.endMarker, FieldKey.endLine]

theorem body_requirementNode (path : String) (block : Block)
    (requirement : Requirement)
    : (requirementNode path block requirement).fields[FieldKey.body]?
      = some (.text requirement.body) := by
  simp [requirementNode, Node.field_withField, FieldKey.body, FieldKey.hasMetadata,
    FieldKey.implementsTargets, FieldKey.refinesTargets, FieldKey.addressesTargets,
    FieldKey.assertions, FieldKey.endMarker, FieldKey.endLine]

theorem hash_requirementNode (path : String) (block : Block)
    (requirement : Requirement)
    : (requirementNode path block requirement).fields[FieldKey.hash]?
      = requirement.storedHash.map FieldValue.text := by
  simp [requirementNode, Node.field_withField, Node.field_withText, FieldKey.title,
    FieldKey.level, FieldKey.status, FieldKey.hash, FieldKey.body, FieldKey.hasMetadata,
    FieldKey.implementsTargets, FieldKey.refinesTargets, FieldKey.addressesTargets,
    FieldKey.assertions, FieldKey.endMarker, FieldKey.endLine]

/-- The node of a journey is new to all edges. -/
theorem journeyNode_parts (path : String) (block : Block) (journey : Journey)
    : (journeyNode path block journey).outgoing = #[]
      ∧ (journeyNode path block journey).kind = .journey := by
  rw [journeyNode]
  simp only [Node.withText, Node.withField]
  split <;> split <;> exact ⟨rfl, rfl⟩

theorem bare_journeyNode (path : String) (block : Block) (journey : Journey)
    : (journeyNode path block journey).bare = journeyNode path block journey := by
  rw [journeyNode]
  simp only [Node.withText, Node.withField]
  split <;> split <;> rfl

theorem requirement_assertionNode (path requirement : String) (assertion : Assertion)
    : (assertionNode path requirement assertion).text? FieldKey.requirement
      = some requirement := by
  simp [assertionNode, Node.text?, Node.field_withField, FieldKey.requirement,
    FieldKey.label, FieldKey.text]

theorem label_assertionNode (path requirement : String) (assertion : Assertion)
    : (assertionNode path requirement assertion).text? FieldKey.label
      = some assertion.letter.toString := by
  simp [assertionNode, Node.text?, Node.field_withField, FieldKey.label, FieldKey.text]

end Assembly

-----------------------------------------------------------------------------------------
-- The invariant of the graph
-----------------------------------------------------------------------------------------

namespace Graph

/-- The letters that a requirement may list. -/
def isCapital (letter : String) : Prop :=
  ∃ c : Char, c.isUpper = true ∧ letter = c.toString

/-- What holds of a graph under assembly: edges are wired, an assertion names a requirement that
is present, and requirements list capital letters. -/
structure Assembled (graph : Graph) : Prop where
  wired : graph.Wired
  owned
    : ∀ id entry, graph.bare? id = some entry → entry.kind = .assertion →
        ∃ name,
          entry.text? FieldKey.requirement = some name
          ∧ graph.isRequirement name = true
  capital
    : ∀ id entry, graph.bare? id = some entry → entry.kind = .requirement →
        ∀ letter ∈ entry.list FieldKey.assertions, isCapital letter

/-- No requirement lists a letter twice unless some identifier was taken. -/
def DistinctLetters (graph : Graph) : Prop :=
  graph.duplicates = [] → ∀ id entry, graph.bare? id = some entry →
    entry.kind = .requirement → (entry.list FieldKey.assertions).Nodup

theorem assembled_empty : ({} : Graph).Assembled where
  wired := wired_empty
  owned id entry found := by simp [bare?, node?] at found
  capital id entry found := by simp [bare?, node?] at found

theorem distinctLetters_empty : ({} : Graph).DistinctLetters := by
  intro _ id entry found
  simp [bare?, node?] at found

/-- Only the nodes and the edges matter. -/
theorem Assembled.congr {graph other : Graph} (assembled : graph.Assembled)
    (nodes : other.nodes = graph.nodes) (edges : other.edges = graph.edges)
    : other.Assembled := by
  cases graph
  cases other
  cases nodes
  cases edges
  exact {
    wired := ⟨assembled.wired.sources, assembled.wired.outgoing⟩
    owned := assembled.owned
    capital := assembled.capital
  }

/-- In an assembled graph the owners are the requirements. -/
theorem Assembled.owner?_eq_some_iff {graph : Graph} (assembled : graph.Assembled)
    {target : String} {parent : Node}
    : graph.owner? target = some parent
      ↔ parent ∈ graph.requirements
        ∧ (target = parent.id
          ∨ ∃ node,
              graph.node? target = some node
              ∧ node.kind = .assertion
              ∧ node.text? FieldKey.requirement = some parent.id) := by
  constructor
  · intro owned
    have present := node?_of_owner? owned
    have kind : parent.kind = .requirement := by
      unfold owner? at owned
      split at owned
      · exact absurd owned (by simp)
      · next node found =>
          split at owned
          · next kind => exact Option.some.inj owned ▸ kind
          · next kind =>
              obtain ⟨name, named, requirement⟩ :=
                assembled.owned target node.bare (bare?_of_node? found) kind
              have own : node.text? FieldKey.requirement = some name := named
              obtain ⟨other, here, isKind⟩ := isRequirement_iff.mp requirement
              rw [own, Option.bind_some, here] at owned
              exact Option.some.inj owned ▸ isKind
          · exact absurd owned (by simp)
    have requirement := isRequirement_iff.mpr ⟨parent, present, kind⟩
    exact ⟨mem_nodesOfKind_iff.mpr ⟨present, kind⟩,
      (owner?_id_iff requirement).mp ⟨parent, owned, rfl⟩⟩
  · intro ⟨member, belongs⟩
    obtain ⟨found, kind⟩ := mem_nodesOfKind_iff.mp member
    obtain ⟨owner, owned, same⟩ :=
      (owner?_id_iff (isRequirement_iff.mpr ⟨parent, found, kind⟩)).mpr belongs
    have present := node?_of_owner? owned
    rw [same, found, Option.some.injEq] at present
    exact present ▸ owned

theorem bare?_addNode (graph : Graph) (node : Node) (id : String)
    : (graph.addNode node).bare? id
      = (graph.bare? id).or (if node.id = id then some node.bare else none) := by
  rw [bare?, bare?, node?_addNode]
  cases graph.node? id with
  | some old => rfl
  | none =>
      rw [Option.map_none, Option.none_or, Option.none_or]
      split <;> rfl

/-- What is kept after a node was inserted was kept before, or is the node. -/
theorem bare?_addNode_cases {graph : Graph} {node : Node} {id : String} {entry : Node}
    (found : (graph.addNode node).bare? id = some entry)
    : graph.bare? id = some entry ∨ node.bare = entry := by
  rw [bare?_addNode, Option.or_eq_some_iff] at found
  rcases found with old | ⟨-, new⟩
  · exact Or.inl old
  · obtain ⟨-, same⟩ := Option.ite_none_right_eq_some.mp new
    exact Or.inr (Option.some.inj same)

theorem isRequirement_addNode {graph : Graph} {id : String}
    (requirement : graph.isRequirement id = true) (node : Node)
    : (graph.addNode node).isRequirement id = true := by
  obtain ⟨entry, found, kind⟩ := isRequirement_iff_bare?.mp requirement
  refine isRequirement_iff_bare?.mpr ⟨entry, ?_, kind⟩
  rw [bare?_addNode, found, Option.some_or]

theorem Assembled.addNode {graph : Graph} (assembled : graph.Assembled) {node : Node}
    (unattached : node.outgoing = #[])
    (owned
      : node.kind = .assertion →
          ∃ name,
            node.text? FieldKey.requirement = some name
            ∧ graph.isRequirement name = true)
    (capital
      : node.kind = .requirement →
          ∀ letter ∈ node.list FieldKey.assertions, isCapital letter)
    : (graph.addNode node).Assembled := by
  refine {
    wired := assembled.wired.addNode unattached
    owned := ?_
    capital := ?_
  }
  · intro id entry found kind
    have here
        : ∃ name,
            entry.text? FieldKey.requirement = some name
            ∧ graph.isRequirement name = true := by
      rcases bare?_addNode_cases found with old | rfl
      · exact assembled.owned id entry old kind
      · exact owned kind
    obtain ⟨name, named, requirement⟩ := here
    exact ⟨name, named, isRequirement_addNode requirement node⟩
  · intro id entry found kind
    rcases bare?_addNode_cases found with old | rfl
    · exact assembled.capital id entry old kind
    · exact capital kind

/-- Edges leave the entries of all nodes alone. -/
theorem Assembled.addEdge {graph : Graph} (assembled : graph.Assembled) {edge : Edge}
    (present : graph.contains edge.source = true)
    : (graph.addEdge edge).Assembled where
  wired := assembled.wired.addEdge present
  owned id entry found kind := by
    rw [bare?_addEdge] at found
    obtain ⟨name, named, requirement⟩ := assembled.owned id entry found kind
    refine ⟨name, named, ?_⟩
    rw [isRequirement_iff_bare?] at requirement ⊢
    simpa only [bare?_addEdge] using requirement
  capital id entry found := by
    rw [bare?_addEdge] at found
    exact assembled.capital id entry found

/-- A node that is no requirement lists no letters of its own. -/
theorem DistinctLetters.addNode {graph : Graph} (distinct : graph.DistinctLetters) {node : Node}
    (other : node.kind ≠ .requirement)
    : (graph.addNode node).DistinctLetters := by
  intro unique id entry found kind
  rcases bare?_addNode_cases found with old | rfl
  · exact distinct (duplicates_addNode_iff.mp unique).1 id entry old kind
  · exact absurd kind other

theorem DistinctLetters.addEdge {graph : Graph} (distinct : graph.DistinctLetters) (edge : Edge)
    : (graph.addEdge edge).DistinctLetters := by
  intro unique id entry found
  rw [bare?_addEdge] at found
  rw [duplicates_addEdge] at unique
  exact distinct unique id entry found

end Graph

-----------------------------------------------------------------------------------------
-- Assertions of a requirement
-----------------------------------------------------------------------------------------

namespace Assembly

/-- Adding an assertion changes entries as adding its node does. -/
theorem bare?_addAssertion (path requirement : String) (graph : Graph) (assertion : Assertion)
    (id : String)
    : (addAssertion path requirement graph assertion).bare? id
      = (graph.addNode (assertionNode path requirement assertion)).bare? id := by
  rw [addAssertion]
  split
  · rfl
  · rw [Graph.bare?_addEdge]

theorem contains_addAssertion_of {path requirement : String} {graph : Graph}
    {assertion : Assertion} {id : String}
    (present
      : graph.contains id = true ∨ assertionId requirement assertion.letter.toString = id)
    : (addAssertion path requirement graph assertion).contains id = true := by
  rw [Graph.contains_iff_bare?, bare?_addAssertion, ← Graph.contains_iff_bare?]
  exact Graph.contains_addNode.mpr present

theorem duplicates_addAssertion_iff {path requirement : String} {graph : Graph}
    {assertion : Assertion}
    : (addAssertion path requirement graph assertion).duplicates = []
      ↔ graph.duplicates = []
        ∧ graph.contains (assertionNode path requirement assertion).id = false := by
  rw [← Graph.duplicates_addNode_iff, addAssertion]
  split
  · rfl
  · rw [Graph.duplicates_addEdge]

theorem assembled_addAssertion {path requirement : String} {graph : Graph}
    (assembled : graph.Assembled) (present : graph.isRequirement requirement = true)
    (assertion : Assertion)
    : (addAssertion path requirement graph assertion).Assembled
      ∧ (addAssertion path requirement graph assertion).isRequirement requirement = true := by
  have kept := Graph.isRequirement_addNode present (assertionNode path requirement assertion)
  have added : (graph.addNode (assertionNode path requirement assertion)).Assembled := by
    refine assembled.addNode rfl (fun _ => ?_) (fun kind => ?_)
    · exact ⟨requirement, requirement_assertionNode path requirement assertion, present⟩
    · exact absurd kind NodeKind.noConfusion
  refine ⟨?_, ?_⟩
  · rw [addAssertion]
    split
    · exact added
    · refine added.addEdge ?_
      obtain ⟨node, found, -⟩ := Graph.isRequirement_iff.mp kept
      exact Graph.contains_iff.mpr ⟨node, found⟩
  · rw [Graph.isRequirement_iff_bare?] at kept ⊢
    simpa only [bare?_addAssertion] using kept

theorem assembled_foldl_addAssertion {path requirement : String} (assertions : List Assertion)
    {graph : Graph} (assembled : graph.Assembled)
    (present : graph.isRequirement requirement = true)
    : (assertions.foldl (addAssertion path requirement) graph).Assembled := by
  induction assertions generalizing graph with
  | nil => exact assembled
  | cons assertion rest ih =>
      obtain ⟨next, still⟩ := assembled_addAssertion assembled present assertion
      exact ih next still

/-- If nothing was duplicated, the identifiers of the assertions were free, and so their letters
are distinct. Witness: a repeated letter would find the identifier taken. -/
theorem distinct_of_foldl_addAssertion {path requirement : String} (assertions : List Assertion)
    {graph : Graph}
    (unique : (assertions.foldl (addAssertion path requirement) graph).duplicates = [])
    : graph.duplicates = []
      ∧ (assertions.map (fun assertion => assertion.letter.toString)).Nodup
      ∧ ∀ assertion ∈ assertions,
          ¬ graph.contains (assertionId requirement assertion.letter.toString) = true := by
  induction assertions generalizing graph with
  | nil => exact ⟨unique, by simp, by simp⟩
  | cons assertion rest ih =>
      obtain ⟨first, later, free⟩ := ih unique
      obtain ⟨before, fresh⟩ := duplicates_addAssertion_iff.mp first
      refine ⟨before, ?_, ?_⟩
      · rw [List.map_cons, List.nodup_cons]
        refine ⟨?_, later⟩
        intro again
        obtain ⟨other, member, same⟩ := List.mem_map.mp again
        exact free other member (contains_addAssertion_of (Or.inr (same ▸ rfl)))
      · intro other member
        rcases List.mem_cons.mp member with rfl | member
        · exact Bool.not_eq_true _ ▸ fresh
        · exact fun present => free other member (contains_addAssertion_of (Or.inl present))

/-- What the assertions of a requirement add are their nodes. -/
theorem bare?_foldl_addAssertion {path requirement : String} (assertions : List Assertion)
    {graph : Graph} {id : String} {entry : Node}
    (found : (assertions.foldl (addAssertion path requirement) graph).bare? id = some entry)
    : graph.bare? id = some entry
      ∨ ∃ assertion ∈ assertions, entry = assertionNode path requirement assertion := by
  induction assertions generalizing graph with
  | nil => exact Or.inl found
  | cons assertion rest ih =>
      rcases ih found with here | ⟨other, member, own⟩
      · rw [bare?_addAssertion] at here
        rcases Graph.bare?_addNode_cases here with old | own
        · exact Or.inl old
        · exact Or.inr ⟨assertion, List.mem_cons_self, own.symm⟩
      · exact Or.inr ⟨other, List.mem_cons_of_mem assertion member, own⟩

theorem contains_foldl_addAssertion {path requirement : String} (assertions : List Assertion)
    {graph : Graph} {id : String} (present : graph.contains id = true)
    : (assertions.foldl (addAssertion path requirement) graph).contains id = true := by
  induction assertions generalizing graph with
  | nil => exact present
  | cons assertion rest ih =>
      exact ih (contains_addAssertion_of (Or.inl present))

/-- Every assertion of a requirement is present in the end. -/
theorem contains_foldl_addAssertion_of_mem {path requirement : String}
    {assertions : List Assertion} {assertion : Assertion} (member : assertion ∈ assertions)
    (graph : Graph)
    : (assertions.foldl (addAssertion path requirement) graph).contains
        (assertionId requirement assertion.letter.toString) = true := by
  induction assertions generalizing graph with
  | nil => exact absurd member List.not_mem_nil
  | cons first rest ih =>
      rcases List.mem_cons.mp member with rfl | later
      · exact contains_foldl_addAssertion rest (contains_addAssertion_of (Or.inr rfl))
      · exact ih later _

-----------------------------------------------------------------------------------------
-- The invariant of assembly
-----------------------------------------------------------------------------------------

/-- What holds after every block: the graph is in order, and each reference that waits was read
from a node that is present. -/
structure Valid (assembly : Assembly) : Prop where
  assembled : assembly.graph.Assembled
  distinct : assembly.graph.DistinctLetters
  pending : ∀ reference ∈ assembly.pending, assembly.graph.contains reference.source = true

theorem valid_empty : ({} : Assembly).Valid where
  assembled := Graph.assembled_empty
  distinct := Graph.distinctLetters_empty
  pending _ member := absurd member List.not_mem_nil

/-- The assertions that a block holds carry capital letters. -/
def CapitalLetters (block : Block) : Prop :=
  ∀ requirement, block.content = .requirement requirement →
    ∀ assertion ∈ requirement.assertions, assertion.letter.isUpper = true

/-- A node that is neither requirement nor assertion, with references read from it. -/
theorem Valid.addPlain {assembly : Assembly} (valid : assembly.Valid) {node : Node}
    (unattached : node.outgoing = #[]) (noAssertion : node.kind ≠ .assertion)
    (noRequirement : node.kind ≠ .requirement) (waiting : List PendingReference)
    (own : ∀ reference ∈ waiting, reference.source = node.id)
    : ({ assembly with
          graph := assembly.graph.addNode node
          pending := assembly.pending ++ waiting } : Assembly).Valid where
  assembled := valid.assembled.addNode unattached (fun kind => absurd kind noAssertion)
    (fun kind => absurd kind noRequirement)
  distinct := valid.distinct.addNode noRequirement
  pending reference member := by
    rw [Graph.contains_addNode]
    rcases List.mem_append.mp member with old | new
    · exact Or.inl (valid.pending reference old)
    · exact Or.inr (own reference new).symm

/-- A further definition of an identifier only adds a duplicate. -/
theorem Valid.addDuplicate {assembly : Assembly} (valid : assembly.Valid) {node : Node}
    (taken : assembly.graph.contains node.id = true)
    : ({ assembly with graph := assembly.graph.addNode node } : Assembly).Valid := by
  obtain ⟨existing, present⟩ := Graph.contains_iff.mp taken
  have kept
      : assembly.graph.addNode node
        = { assembly.graph with
            duplicates := assembly.graph.duplicates
              ++ [⟨node.id, existing.source, node.source⟩] } := by
    rw [Graph.addNode, present]
  rw [kept]
  exact {
    assembled := valid.assembled.congr rfl rfl
    distinct := fun unique => absurd unique (by simp)
    pending := valid.pending
  }

theorem Valid.addReference {assembly : Assembly} (valid : assembly.Valid) {nodeKind : NodeKind}
    (noAssertion : nodeKind ≠ .assertion) (noRequirement : nodeKind ≠ .requirement)
    (edgeKind : EdgeKind) (path : String) (block : Block) (reference : Reference)
    : (addReference nodeKind edgeKind path assembly block reference).Valid := by
  rw [Assembly.addReference]
  split
  · next taken => exact valid.addDuplicate taken
  · refine valid.addPlain rfl noAssertion noRequirement _ ?_
    intro waiting member
    obtain ⟨target, -, rfl⟩ := List.mem_map.mp member
    rfl

/-- A new requirement is in order together with its assertions. -/
theorem Valid.addLettered {assembly : Assembly} (valid : assembly.Valid) {node : Node}
    (unattached : node.outgoing = #[]) (isKind : node.kind = .requirement)
    (new : ¬ assembly.graph.contains node.id = true) (assertions : List Assertion)
    (capital : ∀ assertion ∈ assertions, assertion.letter.isUpper = true)
    (letters
      : node.list FieldKey.assertions
        = assertions.map (fun assertion => assertion.letter.toString))
    (waiting : List PendingReference) (own : ∀ reference ∈ waiting, reference.source = node.id)
    (path : String) (roots : List String)
    : ({ graph := assertions.foldl (addAssertion path node.id) (assembly.graph.addNode node)
         pending := assembly.pending ++ waiting
         roots } : Assembly).Valid := by
  have added : (assembly.graph.addNode node).Assembled := by
    refine valid.assembled.addNode unattached (fun kind => ?_) (fun _ letter member => ?_)
    · exact absurd (isKind.symm.trans kind) NodeKind.noConfusion
    · rw [letters] at member
      obtain ⟨assertion, listed, rfl⟩ := List.mem_map.mp member
      exact ⟨assertion.letter, capital assertion listed, rfl⟩
  have present : (assembly.graph.addNode node).contains node.id = true :=
    Graph.contains_addNode.mpr (Or.inr rfl)
  have isRequirement : (assembly.graph.addNode node).isRequirement node.id = true := by
    obtain ⟨entry, found⟩ := Graph.contains_iff_bare?.mp present
    refine Graph.isRequirement_iff_bare?.mpr ⟨entry, found, ?_⟩
    rcases Graph.bare?_addNode_cases found with old | rfl
    · exact absurd (Graph.contains_iff_bare?.mpr ⟨entry, old⟩) new
    · exact isKind
  refine {
    assembled := assembled_foldl_addAssertion _ added isRequirement
    distinct := ?_
    pending := ?_
  }
  · intro unique id entry found kind
    obtain ⟨before, nodup, -⟩ := distinct_of_foldl_addAssertion _ unique
    rcases bare?_foldl_addAssertion _ found with here | ⟨assertion, -, rfl⟩
    · rcases Graph.bare?_addNode_cases here with old | rfl
      · exact valid.distinct (Graph.duplicates_addNode_iff.mp before).1 id entry old kind
      · exact letters ▸ nodup
    · exact absurd kind NodeKind.noConfusion
  · intro reference member
    apply contains_foldl_addAssertion
    rcases List.mem_append.mp member with old | read
    · exact Graph.contains_addNode.mpr (Or.inl (valid.pending reference old))
    · exact own reference read ▸ present

/-- The references on a metadata line are read from the requirement. -/
theorem source_of_mem_declared {block : Block} {requirement : Requirement}
    {reference : PendingReference} (member : reference ∈ declared block requirement)
    : reference.source = requirement.id := by
  simp only [declared, List.mem_append, List.mem_map] at member
  rcases member with (⟨target, -, rfl⟩ | ⟨target, -, rfl⟩) | ⟨target, -, rfl⟩ <;> rfl

theorem Valid.addRequirement {assembly : Assembly} (valid : assembly.Valid) (path : String)
    (block : Block) (requirement : Requirement)
    (capital : ∀ assertion ∈ requirement.assertions, assertion.letter.isUpper = true)
    : (addRequirement path assembly block requirement).Valid := by
  have letters := letters_requirementNode path block requirement
  obtain ⟨fields, same⟩ := requirementNode_eq path block requirement
  rw [Assembly.addRequirement]
  generalize requirementNode path block requirement = node at letters same
  have isId : node.id = requirement.id := congrArg Node.id same
  split
  · next taken => exact valid.addDuplicate taken
  · next new =>
      rw [← isId]
      exact valid.addLettered (congrArg Node.outgoing same) (congrArg Node.kind same) new _
        capital letters _ (fun _ member => (source_of_mem_declared member).trans isId.symm) path _

theorem Valid.addBlock {assembly : Assembly} (valid : assembly.Valid) (path : String)
    {block : Block} (capital : CapitalLetters block)
    : (addBlock path assembly block).Valid := by
  rw [Assembly.addBlock]
  split
  · next requirement content =>
      exact valid.addRequirement path block requirement (capital requirement content)
  · next journey _ =>
      have node := journeyNode_parts path block journey
      have plain := valid.addPlain node.1 (by rw [node.2]; decide) (by rw [node.2]; decide) []
        (fun _ member => absurd member List.not_mem_nil)
      rw [List.append_nil] at plain
      exact plain
  · exact valid.addReference (by decide) (by decide) _ path block _
  · exact valid.addReference (by decide) (by decide) _ path block _
  · exact valid
  · exact valid

theorem Valid.addFile {assembly : Assembly} (valid : assembly.Valid) {file : ParsedFile}
    (capital : ∀ block ∈ file.blocks, CapitalLetters block)
    : (addFile assembly file).Valid := by
  have blocks : (file.blocks.foldl (Assembly.addBlock file.path) assembly).Valid := by
    refine List.foldlRecOn _ _ valid (fun current here block member => ?_)
    exact Valid.addBlock here file.path (capital block member)
  exact {
    assembled := blocks.assembled.congr rfl rfl
    distinct := blocks.distinct
    pending := blocks.pending
  }

/-- The edges of a reference leave the node from which it was read. -/
theorem source_of_mem_edges {scheme : Scheme} {reference : PendingReference} {edge : Edge}
    (member : edge ∈ reference.edges scheme)
    : edge.source = reference.source := by
  simp only [PendingReference.edges] at member
  generalize (if reference.kind = .addresses then [] else _ : List Char) = letters at member
  split at member
  · exact List.mem_singleton.mp member ▸ rfl
  · obtain ⟨letter, -, rfl⟩ := List.mem_map.mp member
    rfl

theorem Valid.finish {assembly : Assembly} (valid : assembly.Valid) (scheme : Scheme)
    : (assembly.finish scheme).Assembled ∧ (assembly.finish scheme).DistinctLetters := by
  let edges := assembly.pending.flatMap (PendingReference.edges scheme)
  have sources : ∀ edge ∈ edges, assembly.graph.contains edge.source = true := by
    intro edge member
    obtain ⟨reference, waiting, own⟩ := List.mem_flatMap.mp member
    rw [source_of_mem_edges own]
    exact valid.pending reference waiting
  have all
      : (edges.foldl Graph.addEdge assembly.graph).Assembled
        ∧ (edges.foldl Graph.addEdge assembly.graph).DistinctLetters
        ∧ ∀ id, assembly.graph.contains id = true →
            (edges.foldl Graph.addEdge assembly.graph).contains id = true := by
    refine List.foldlRecOn (motive := fun graph : Graph =>
        graph.Assembled ∧ graph.DistinctLetters
        ∧ ∀ id, assembly.graph.contains id = true → graph.contains id = true) _ _
      ⟨valid.assembled, valid.distinct, fun _ present => present⟩ ?_
    intro graph ⟨assembled, distinct, kept⟩ edge member
    exact ⟨assembled.addEdge (kept _ (sources edge member)), distinct.addEdge edge,
      fun id present => Graph.contains_addEdge.mpr (kept id present)⟩
  exact ⟨all.1.congr rfl rfl, all.2.1⟩

end Assembly

/-- Every graph that is assembled from files is in order. -/
theorem Graph.assembled_assemble (scheme : Scheme) (files : List ParsedFile)
    (capital : ∀ file ∈ files, ∀ block ∈ file.blocks, Assembly.CapitalLetters block)
    : (Graph.assemble scheme files).Assembled ∧ (Graph.assemble scheme files).DistinctLetters := by
  have valid : (files.foldl Assembly.addFile {}).Valid := by
    refine List.foldlRecOn _ _ Assembly.valid_empty (fun assembly here file member => ?_)
    exact here.addFile (capital file member)
  exact valid.finish scheme

end Traceability
