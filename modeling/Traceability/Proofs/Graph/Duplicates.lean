import Traceability.Proofs.Graph.Repeats
import Traceability.Proofs.Scheme.Kinds

/-! Which definitions are duplicates.
Identifiers of different kinds differ, and references stand at different places. So a duplicate
is a second definition of the same kind: a requirement, a journey, or an assertion of one accepted
requirement under a letter that it has already. No reference is ever lost to one.
-/

namespace Traceability

-----------------------------------------------------------------------------------------
-- What a record defines
-----------------------------------------------------------------------------------------

namespace Record

def requirement? (record : Record) : Option Requirement :=
  match record.block.content with
  | .requirement requirement => some requirement
  | _ => none

def journey? (record : Record) : Option Journey :=
  match record.block.content with
  | .journey journey => some journey
  | _ => none

/-- The node of a record that is a reference in code or in a test. -/
def referenceNode? (record : Record) : Option Node :=
  match record.block.content with
  | .codeReference reference =>
      some (Assembly.referenceNode .code record.path record.block reference)
  | .testReference reference =>
      some (Assembly.referenceNode .test record.path record.block reference)
  | _ => none

def location (record : Record) : Location :=
  ⟨record.path, record.block.startLine, record.block.endLine⟩

/-- The node of a record itself, without those of its assertions. -/
def node? (record : Record) : Option Node :=
  record.nodes.head?

/-- The nodes of the assertions of a record. -/
def assertionNodes (record : Record) : List Node :=
  record.nodes.tail

variable {record : Record} {node : Node}

theorem nodes_eq (record : Record)
    : record.nodes = record.node?.toList ++ record.assertionNodes := by
  rw [node?, assertionNodes]
  cases record.nodes with
  | nil => rfl
  | cons first rest => rfl

theorem exists_reference (found : record.referenceNode? = some node)
    : ∃ kind reference, (kind = .code ∨ kind = .test)
        ∧ node = Assembly.referenceNode kind record.path record.block reference := by
  rw [referenceNode?] at found
  split at found
  · exact ⟨.code, _, Or.inl rfl, (Option.some.inj found).symm⟩
  · exact ⟨.test, _, Or.inr rfl, (Option.some.inj found).symm⟩
  · exact absurd found (by simp)

/-- What a record is. -/
theorem node?_cases (found : record.node? = some node)
    : (∃ requirement,
        record.requirement? = some requirement
        ∧ node = Assembly.requirementNode record.path record.block requirement)
      ∨ (∃ journey,
          record.journey? = some journey
          ∧ node = Assembly.journeyNode record.path record.block journey)
      ∨ record.referenceNode? = some node := by
  rw [node?, nodes, Assembly.nodesOf] at found
  split at found
  · next requirement content =>
      refine Or.inl ⟨requirement, ?_, (Option.some.inj found).symm⟩
      rw [requirement?, content]
  · next journey content =>
      refine Or.inr (Or.inl ⟨journey, ?_, (Option.some.inj found).symm⟩)
      rw [journey?, content]
  · next reference content =>
      refine Or.inr (Or.inr ?_)
      rw [referenceNode?, content]
      exact found
  · next reference content =>
      refine Or.inr (Or.inr ?_)
      rw [referenceNode?, content]
      exact found
  · exact absurd found (by simp)
  · exact absurd found (by simp)

theorem node?_of_requirement? {requirement : Requirement}
    (content : record.requirement? = some requirement)
    : record.node? = some (Assembly.requirementNode record.path record.block requirement) := by
  rw [requirement?] at content
  split at content
  · next own here =>
      obtain rfl := Option.some.inj content
      rw [node?, nodes, Assembly.nodesOf, here]
      rfl
  · exact absurd content (by simp)

theorem node?_of_referenceNode? (found : record.referenceNode? = some node)
    : record.node? = some node := by
  rw [referenceNode?] at found
  rw [node?, nodes, Assembly.nodesOf]
  split at found
  · next reference content =>
      rw [content]
      exact found
  · next reference content =>
      rw [content]
      exact found
  · exact absurd found (by simp)

theorem id_mem_ids (found : record.node? = some node) : node.id ∈ record.ids :=
  List.mem_map_of_mem (List.mem_of_head? found)

/-- The kind of its node tells what a record is. -/
theorem exists_requirement (found : record.node? = some node) (kind : node.kind = .requirement)
    : ∃ requirement,
        record.requirement? = some requirement
        ∧ node = Assembly.requirementNode record.path record.block requirement := by
  rcases node?_cases found with own | ⟨journey, -, rfl⟩ | isReference
  · exact own
  · rw [(Assembly.journeyNode_parts _ _ _).2] at kind
    exact NodeKind.noConfusion kind
  · obtain ⟨_, _, rfl | rfl, rfl⟩ := exists_reference isReference
    · exact NodeKind.noConfusion kind
    · exact NodeKind.noConfusion kind

theorem exists_journey (found : record.node? = some node) (kind : node.kind = .journey)
    : ∃ journey,
        record.journey? = some journey
        ∧ node = Assembly.journeyNode record.path record.block journey := by
  rcases node?_cases found with ⟨requirement, -, rfl⟩ | own | isReference
  · rw [Assembly.kind_requirementNode] at kind
    exact NodeKind.noConfusion kind
  · exact own
  · obtain ⟨_, _, rfl | rfl, rfl⟩ := exists_reference isReference
    · exact NodeKind.noConfusion kind
    · exact NodeKind.noConfusion kind

theorem referenceNode?_of_node? (found : record.node? = some node)
    (kind : node.kind = .code ∨ node.kind = .test)
    : record.referenceNode? = some node := by
  rcases node?_cases found with ⟨requirement, -, rfl⟩ | ⟨journey, -, rfl⟩ | isReference
  · rw [Assembly.kind_requirementNode] at kind
    rcases kind with kind | kind <;> exact NodeKind.noConfusion kind
  · rw [(Assembly.journeyNode_parts _ _ _).2] at kind
    rcases kind with kind | kind <;> exact NodeKind.noConfusion kind
  · exact isReference

theorem kind_of_referenceNode? (found : record.referenceNode? = some node)
    : node.kind = .code ∨ node.kind = .test := by
  obtain ⟨_, _, sort, rfl⟩ := exists_reference found
  exact sort

theorem kind_of_node? (found : record.node? = some node)
    : node.kind = .requirement
      ∨ node.kind = .journey
      ∨ node.kind = .code
      ∨ node.kind = .test := by
  rcases node?_cases found with ⟨requirement, -, rfl⟩ | ⟨journey, -, rfl⟩ | isReference
  · exact Or.inl (Assembly.kind_requirementNode _ _ _)
  · exact Or.inr (Or.inl (Assembly.journeyNode_parts _ _ _).2)
  · exact Or.inr (Or.inr (kind_of_referenceNode? isReference))

theorem ne_assertion_of_node? (found : record.node? = some node) : node.kind ≠ .assertion := by
  rcases kind_of_node? found with kind | kind | kind | kind <;> rw [kind]
    <;> exact NodeKind.noConfusion

/-- Only requirements have assertions. -/
theorem exists_of_mem_assertionNodes (member : node ∈ record.assertionNodes)
    : ∃ requirement,
        record.requirement? = some requirement
        ∧ record.assertionNodes
          = requirement.assertions.map (Assembly.assertionNode record.path requirement.id) := by
  rw [assertionNodes, nodes, Assembly.nodesOf] at member
  rw [assertionNodes, nodes, Assembly.nodesOf]
  split at member
  · next requirement content =>
      refine ⟨requirement, ?_, rfl⟩
      rw [requirement?, content]
  all_goals exact absurd member List.not_mem_nil

/-- The assertions of records with different identifiers differ. -/
theorem id_ne_of_assertions {other : Record}
    (apart : ∀ node, other.node? = some node → node.id ∉ record.ids) {first second : Node}
    (isFirst : first ∈ record.assertionNodes) (isSecond : second ∈ other.assertionNodes)
    : first.id ≠ second.id := by
  obtain ⟨requirement, content, nodes⟩ := exists_of_mem_assertionNodes isFirst
  obtain ⟨requirement', content', nodes'⟩ := exists_of_mem_assertionNodes isSecond
  rw [nodes] at isFirst
  rw [nodes'] at isSecond
  obtain ⟨assertion, -, rfl⟩ := List.mem_map.mp isFirst
  obtain ⟨assertion', -, rfl⟩ := List.mem_map.mp isSecond
  intro same
  obtain ⟨owner, -⟩ := assertionId_inj.mp same
  have own := id_mem_ids (node?_of_requirement? content)
  have foreign := apart _ (node?_of_requirement? content')
  rw [Assembly.id_requirementNode] at own foreign
  exact foreign (owner ▸ own)

theorem kind_of_mem_assertionNodes (member : node ∈ record.assertionNodes)
    : node.kind = .assertion := by
  obtain ⟨requirement, -, nodes⟩ := exists_of_mem_assertionNodes member
  rw [nodes] at member
  obtain ⟨assertion, -, rfl⟩ := List.mem_map.mp member
  rfl

end Record

-----------------------------------------------------------------------------------------
-- The nodes that a graph is offered
-----------------------------------------------------------------------------------------

namespace Intake

/-- The records themselves are all offered, and their assertions if they are accepted. -/
structure Sorted (intake : Intake) (seen : List Record) : Prop where
  own
    : intake.offered.filter (fun node => !decide (node.kind = .assertion))
      = seen.filterMap Record.node?
  assertions
    : intake.offered.filter (fun node => decide (node.kind = .assertion))
      = intake.accepted.flatMap Record.assertionNodes

theorem Sorted.take {intake : Intake} {seen : List Record} (sorted : intake.Sorted seen)
    (record : Record)
    : (intake.take record).Sorted (seen ++ [record]) := by
  have plain : ∀ node ∈ record.node?.toList, node.kind ≠ .assertion := by
    intro node member
    exact Record.ne_assertion_of_node? (Option.mem_toList.mp member)
  have lettered : ∀ node ∈ record.assertionNodes, node.kind = .assertion :=
    fun node member => Record.kind_of_mem_assertionNodes member
  have own
      : record.node?.toList.filter (fun node => !decide (node.kind = .assertion))
        = record.node?.toList := by
    exact List.filter_eq_self.mpr (fun node member => by simp [plain node member])
  have ownNone
      : record.node?.toList.filter (fun node => decide (node.kind = .assertion)) = [] :=
    List.filter_eq_nil_iff.mpr (fun node member => by simp [plain node member])
  have assertions
      : record.assertionNodes.filter (fun node => decide (node.kind = .assertion))
        = record.assertionNodes :=
    List.filter_eq_self.mpr (fun node member => by simp [lettered node member])
  have assertionsNone
      : record.assertionNodes.filter (fun node => !decide (node.kind = .assertion)) = [] :=
    List.filter_eq_nil_iff.mpr (fun node member => by simp [lettered node member])
  have seen : (seen ++ [record]).filterMap Record.node?
      = seen.filterMap Record.node? ++ record.node?.toList := by
    rw [List.filterMap_append]
    cases found : record.node? <;> simp [found]
  rw [Intake.take]
  split
  · constructor
    · rw [List.filter_append, sorted.own, seen, record.nodes_eq, List.filter_append, own,
        assertionsNone, List.append_nil]
    · rw [List.filter_append, sorted.assertions, record.nodes_eq, List.filter_append, ownNone,
        assertions, List.nil_append, List.flatMap_append, List.flatMap_singleton]
  · have first : record.nodes.take 1 = record.node?.toList := List.take_one
    constructor
    · rw [List.filter_append, sorted.own, seen, first, own]
    · rw [List.filter_append, sorted.assertions, first, ownNone, List.append_nil]

theorem sorted_ofFiles (files : List ParsedFile)
    : (ofFiles files).Sorted (files.flatMap ParsedFile.records) := by
  have run (records : List Record) {intake : Intake} {seen : List Record}
      (sorted : intake.Sorted seen)
      : (records.foldl take intake).Sorted (seen ++ records) := by
    induction records generalizing intake seen with
    | nil =>
        rw [List.append_nil]
        exact sorted
    | cons record rest ih =>
        rw [List.append_cons]
        exact ih (sorted.take record)
  have empty : ({} : Intake).Sorted [] := ⟨rfl, rfl⟩
  exact run _ empty

/-- No accepted record defines the identifier of a later one. -/
theorem accepted_pairwise (files : List ParsedFile)
    : (ofFiles files).accepted.Pairwise (fun earlier later =>
        ∀ node, later.node? = some node → node.id ∉ earlier.ids) := by
  refine List.foldlRecOn (motive := fun intake : Intake => intake.accepted.Pairwise _) _ _ .nil ?_
  intro intake distinct record _
  rw [Intake.take]
  split
  · next isNew =>
      refine List.pairwise_append.mpr ⟨distinct, List.pairwise_singleton _ _, ?_⟩
      intro earlier member later single node own defined
      rw [List.mem_singleton.mp single] at own
      exact (Record.isNew_iff own).mp isNew (List.mem_flatMap.mpr ⟨earlier, member, defined⟩)
  · exact distinct

/-- Accepted records were among the records. -/
theorem accepted_sublist (files : List ParsedFile)
    : (ofFiles files).accepted.Sublist (files.flatMap ParsedFile.records) := by
  have run (records : List Record) (intake : Intake)
      : ∃ more, (records.foldl take intake).accepted = intake.accepted ++ more
          ∧ more.Sublist records := by
    induction records generalizing intake with
    | nil => exact ⟨[], by simp, .slnil⟩
    | cons record rest ih =>
        obtain ⟨more, split, sublist⟩ := ih (intake.take record)
        rw [List.foldl_cons, split, Intake.take]
        split
        · exact ⟨record :: more, by simp, sublist.cons_cons record⟩
        · exact ⟨more, rfl, sublist.cons record⟩
  obtain ⟨more, split, sublist⟩ := run (files.flatMap ParsedFile.records) {}
  rw [ofFiles, split]
  exact sublist

end Intake

-----------------------------------------------------------------------------------------
-- Sources with distinct paths
-----------------------------------------------------------------------------------------

/-- The files of a source set as they are parsed. -/
def SourceSet.parsed (scheme : Scheme) (sources : SourceSet) : List ParsedFile :=
  sources.files.map (fun file => Registry.standard.parseFile scheme file.path file.text)

/-- The records of all files. -/
def SourceSet.records (scheme : Scheme) (sources : SourceSet) : List Record :=
  (sources.parsed scheme).flatMap ParsedFile.records

section Sources

variable {scheme : Scheme} {sources : SourceSet}

theorem names_of_mem_records {record : Record} (member : record ∈ sources.records scheme)
    {node : Node} (declared : node ∈ record.nodes)
    : scheme.Names node.kind node.id := by
  obtain ⟨file, parsed, listed⟩ := List.mem_flatMap.mp member
  obtain ⟨source, -, rfl⟩ := List.mem_map.mp parsed
  obtain ⟨block, own, rfl⟩ := List.mem_map.mp listed
  exact Scheme.names_of_mem_nodesOf own declared

/-- Blocks of one file start on different lines, and files have different paths. -/
theorem places_distinct (distinct : (sources.files.map SourceFile.path).Nodup)
    : (sources.records scheme).Pairwise (fun a b =>
        a.path = b.path → a.block.startLine ≠ b.block.startLine) := by
  rw [SourceSet.records, SourceSet.parsed, List.flatMap_map, List.pairwise_flatMap]
  constructor
  · intro source _
    have ascending := Line.ascending_ofText source.text
    have before := Registry.standard.blocks_pairwise_before ascending ⟨source.path, scheme⟩
    refine List.pairwise_map.mpr (before.imp_of_mem (fun {a b} first _ ends _ => ?_))
    have nonempty := Registry.mem_blocks_nonempty ascending first
    exact Nat.ne_of_lt (Nat.lt_of_le_of_lt nonempty ends)
  · refine (List.pairwise_map.mp distinct).imp (fun {a b} apart x first y second same => ?_)
    obtain ⟨_, -, rfl⟩ := List.mem_map.mp first
    obtain ⟨_, -, rfl⟩ := List.mem_map.mp second
    exact absurd same apart

/-- Two references never share an identifier. -/
theorem id_ne_of_references (distinct : (sources.files.map SourceFile.path).Nodup)
    {a b : Record} (order : [a, b].Sublist (sources.records scheme)) {first second : Node}
    (isFirst : a.referenceNode? = some first) (isSecond : b.referenceNode? = some second)
    : first.id ≠ second.id := by
  have apart := List.rel_of_pairwise_cons
    ((places_distinct distinct).sublist order) List.mem_cons_self
  obtain ⟨kind, _, isReference, rfl⟩ := Record.exists_reference isFirst
  obtain ⟨other, _, isOther, rfl⟩ := Record.exists_reference isSecond
  intro same
  obtain ⟨path, line⟩ := Scheme.referenceNode_inj isReference isOther same
  exact apart path line

theorem references_distinct (distinct : (sources.files.map SourceFile.path).Nodup)
    : (((sources.records scheme).filterMap Record.referenceNode?).map Node.id).Nodup := by
  refine List.pairwise_map.mpr (List.pairwise_filterMap.mpr ?_)
  refine List.pairwise_iff_forall_sublist.mpr (fun {a b} order first isFirst second isSecond => ?_)
  exact id_ne_of_references distinct order isFirst isSecond

/-- What a graph is offered was declared by a record. -/
theorem exists_record_of_mem_offered {files : List ParsedFile} {node : Node}
    (member : node ∈ (Intake.ofFiles files).offered)
    : ∃ record ∈ files.flatMap ParsedFile.records, node ∈ record.nodes := by
  have sorted := Intake.sorted_ofFiles files
  by_cases kind : node.kind = .assertion
  · have lettered : node ∈ (Intake.ofFiles files).accepted.flatMap Record.assertionNodes := by
      rw [← sorted.assertions]
      exact List.mem_filter.mpr ⟨member, decide_eq_true kind⟩
    obtain ⟨record, accepted, own⟩ := List.mem_flatMap.mp lettered
    exact ⟨record, (Intake.accepted_sublist files).subset accepted, List.mem_of_mem_tail own⟩
  · have plain : node ∈ (files.flatMap ParsedFile.records).filterMap Record.node? := by
      rw [← sorted.own]
      exact List.mem_filter.mpr ⟨member, by simp [kind]⟩
    obtain ⟨record, listed, own⟩ := List.mem_filterMap.mp plain
    exact ⟨record, listed, List.mem_of_head? own⟩

/-- Nodes with one identifier are of one kind. -/
theorem kind_eq_of_mem_offered (apart : scheme.Apart) {a b : Node}
    (offeredA : a ∈ (Intake.ofFiles (sources.parsed scheme)).offered)
    (offeredB : b ∈ (Intake.ofFiles (sources.parsed scheme)).offered) (same : a.id = b.id)
    : a.kind = b.kind := by
  obtain ⟨record, member, declared⟩ := exists_record_of_mem_offered offeredA
  obtain ⟨other, otherMember, otherDeclared⟩ := exists_record_of_mem_offered offeredB
  refine Scheme.Names.kind_eq apart (names_of_mem_records member declared) ?_
  rw [same]
  exact names_of_mem_records otherMember otherDeclared

end Sources

-----------------------------------------------------------------------------------------
-- Pairs of definitions
-----------------------------------------------------------------------------------------

theorem exists_pair_of_filterMap {α β : Type} {f : α → Option β} {items : List α} {x y : β}
    (pair : [x, y].Sublist (items.filterMap f))
    : ∃ a b, [a, b].Sublist items ∧ f a = some x ∧ f b = some y := by
  obtain ⟨chosen, sublist, read⟩ := List.sublist_filterMap_iff.mp pair
  obtain ⟨before, a, rest, rfl, -, first, later⟩ := List.filterMap_eq_cons_iff.mp read.symm
  obtain ⟨between, b, after, rfl, -, second, -⟩ := List.filterMap_eq_cons_iff.mp later
  refine ⟨a, b, List.Sublist.trans ?_ sublist, first, second⟩
  exact .trans (.cons_cons a (.trans (.cons_cons b (List.nil_sublist after))
    (List.sublist_append_right between _))) (List.sublist_append_right before _)

/-- Two items of a concatenation come from one part or from two. -/
theorem exists_pair_of_flatMap {α β : Type} {f : α → List β} {items : List α} {x y : β}
    (pair : [x, y].Sublist (items.flatMap f))
    : (∃ a ∈ items, [x, y].Sublist (f a))
      ∨ ∃ a b, [a, b].Sublist items ∧ x ∈ f a ∧ y ∈ f b := by
  induction items with
  | nil => exact absurd pair.length_le (by simp)
  | cons a rest ih =>
      rw [List.flatMap_cons] at pair
      obtain ⟨front, back, split, own, later⟩ := List.sublist_append_iff.mp pair
      match front, split with
      | [], split =>
          rw [List.nil_append] at split
          rcases ih (split ▸ later) with ⟨b, member, within⟩ | ⟨b, c, order, both⟩
          · exact Or.inl ⟨b, List.mem_cons_of_mem a member, within⟩
          · exact Or.inr ⟨b, c, order.cons a, both⟩
      | [_], split =>
          obtain ⟨rfl, rfl⟩ := List.cons.inj split
          obtain ⟨b, member, inside⟩ := List.mem_flatMap.mp (List.singleton_sublist.mp later)
          refine Or.inr ⟨a, b, ?_, List.singleton_sublist.mp own, inside⟩
          exact .cons_cons a (List.singleton_sublist.mpr member)
      | _ :: _ :: more, split =>
          obtain ⟨rfl, rest'⟩ := List.cons.inj split
          obtain ⟨rfl, none⟩ := List.cons.inj rest'
          obtain ⟨rfl, -⟩ := List.append_eq_nil_iff.mp none.symm
          exact Or.inl ⟨a, List.mem_cons_self, own⟩

/-- A duplicate pairs two definitions of one kind, with their places: two requirements, two
journeys, or two assertions of one accepted requirement under one letter. -/
inductive Duplicate.Pairs (records accepted : List Record) : Duplicate → Prop
  | requirements {a b : Record} {first second : Requirement} (order : [a, b].Sublist records)
    (isFirst : a.requirement? = some first) (isSecond : b.requirement? = some second)
    (same : first.id = second.id)
    : Pairs records accepted ⟨first.id, a.location, b.location⟩
  | journeys {a b : Record} {first second : Journey} (order : [a, b].Sublist records)
    (isFirst : a.journey? = some first) (isSecond : b.journey? = some second)
    (same : first.id = second.id)
    : Pairs records accepted ⟨first.id, a.location, b.location⟩
  | assertions {record : Record} {requirement : Requirement} {first second : Assertion}
    (isAccepted : record ∈ accepted) (content : record.requirement? = some requirement)
    (order : [first, second].Sublist requirement.assertions)
    (same : first.letter = second.letter)
    : Pairs records accepted
        ⟨assertionId requirement.id first.letter.toString,
          Location.ofLine record.path first.line, Location.ofLine record.path second.line⟩

section Pairs

variable {scheme : Scheme} {sources : SourceSet}

/-- Records under one identifier are two requirements or two journeys, as two references stand at
different places. -/
theorem pairs_of_records (distinct : (sources.files.map SourceFile.path).Nodup)
    (accepted : List Record) {a b : Record} (order : [a, b].Sublist (sources.records scheme))
    {first second : Node} (isFirst : a.node? = some first) (isSecond : b.node? = some second)
    (kind : first.kind = second.kind) (same : first.id = second.id)
    : Duplicate.Pairs (sources.records scheme) accepted
        ⟨second.id, first.source, second.source⟩ := by
  rcases Record.kind_of_node? isFirst with isKind | isKind | isKind
  · obtain ⟨own, read, rfl⟩ := Record.exists_requirement isFirst isKind
    obtain ⟨other, readOther, rfl⟩ := Record.exists_requirement isSecond (kind ▸ isKind)
    simp only [Assembly.id_requirementNode, Assembly.source_requirementNode] at same ⊢
    exact same ▸ .requirements order read readOther same
  · obtain ⟨own, read, rfl⟩ := Record.exists_journey isFirst isKind
    obtain ⟨other, readOther, rfl⟩ := Record.exists_journey isSecond (kind ▸ isKind)
    simp only [Assembly.id_journeyNode, Assembly.source_journeyNode] at same ⊢
    exact same ▸ .journeys order read readOther same
  · have reference := Record.referenceNode?_of_node? isFirst isKind
    have referenceOther := Record.referenceNode?_of_node? isSecond (kind ▸ isKind)
    exact absurd same (id_ne_of_references distinct order reference referenceOther)

/-- Assertions under one identifier belong to one accepted requirement, since no other accepted
record has its identifier. -/
theorem pairs_of_assertions {files : List ParsedFile} (records : List Record)
    {first second : Node}
    (order : [first, second].Sublist ((acceptedRecords files).flatMap Record.assertionNodes))
    (same : first.id = second.id)
    : Duplicate.Pairs records (acceptedRecords files)
        ⟨second.id, first.source, second.source⟩ := by
  rcases exists_pair_of_flatMap order with ⟨record, isAccepted, within⟩ | ⟨a, b, both, own, other⟩
  · obtain ⟨requirement, content, nodes⟩ :=
      Record.exists_of_mem_assertionNodes (within.subset List.mem_cons_self)
    rw [nodes] at within
    obtain ⟨chosen, listed, written⟩ := List.sublist_map_iff.mp within
    obtain ⟨one, rest, rfl, rfl, written'⟩ := List.map_eq_cons_iff.mp written.symm
    obtain ⟨two, none, rfl, rfl, empty⟩ := List.map_eq_cons_iff.mp written'
    obtain rfl := List.map_eq_nil_iff.mp empty
    obtain ⟨-, letter⟩ := assertionId_inj.mp same
    have pair
        : Duplicate.Pairs records (acceptedRecords files)
            ⟨assertionId requirement.id one.letter.toString,
              Location.ofLine record.path one.line, Location.ofLine record.path two.line⟩ :=
      .assertions isAccepted content listed letter
    rw [letter] at pair
    exact pair
  · have distinct := List.rel_of_pairwise_cons
      ((Intake.accepted_pairwise files).sublist both) List.mem_cons_self
    exact absurd same (Record.id_ne_of_assertions distinct own other)

/-- Every duplicate pairs two definitions of one kind. Witness: two nodes with one identifier are
of one kind, and both are records themselves or both are assertions. -/
theorem pairs_of_mem_duplicates (apart : scheme.Apart)
    (distinct : (sources.files.map SourceFile.path).Nodup) {entry : Duplicate}
    (member : entry ∈ (Graph.ofSources scheme sources).duplicates)
    : Duplicate.Pairs (sources.records scheme) (acceptedRecords (sources.parsed scheme)) entry := by
  have keeps : (Graph.ofSources scheme sources).Keeps
      (Intake.ofFiles (sources.parsed scheme)).offered := Graph.keeps_assemble scheme _
  rw [keeps.duplicates] at member
  obtain ⟨first, second, order, same, rfl⟩ := exists_pair_of_mem_repeatsAfter member
  rw [List.nil_append] at order
  have kind := kind_eq_of_mem_offered apart (order.subset List.mem_cons_self)
    (order.subset (List.mem_cons_of_mem _ List.mem_cons_self)) same
  have sorted := Intake.sorted_ofFiles (sources.parsed scheme)
  by_cases lettered : first.kind = .assertion
  · have chosen := order.filter (fun node : Node => decide (node.kind = .assertion))
    rw [sorted.assertions, List.filter_eq_self.mpr (by simp [← kind, lettered])] at chosen
    exact pairs_of_assertions _ chosen same
  · have chosen := order.filter (fun node : Node => !decide (node.kind = .assertion))
    rw [sorted.own, List.filter_eq_self.mpr (by simp [← kind, lettered])] at chosen
    obtain ⟨a, b, both, isFirst, isSecond⟩ := exists_pair_of_filterMap chosen
    exact pairs_of_records distinct _ both isFirst isSecond kind same

end Pairs

-----------------------------------------------------------------------------------------
-- References
-----------------------------------------------------------------------------------------

section References

variable {scheme : Scheme} {sources : SourceSet}

theorem mem_offered_of_node? {record : Record} (listed : record ∈ sources.records scheme)
    {node : Node} (own : record.node? = some node)
    : node ∈ (Intake.ofFiles (sources.parsed scheme)).offered := by
  have sorted := Intake.sorted_ofFiles (sources.parsed scheme)
  have member : node ∈ (sources.records scheme).filterMap Record.node? :=
    List.mem_filterMap.mpr ⟨record, listed, own⟩
  rw [SourceSet.records, ← sorted.own] at member
  exact List.mem_of_mem_filter member

/-- What was offered under the identifier of a reference is the reference. -/
theorem eq_of_mem_offered (apart : scheme.Apart)
    (distinct : (sources.files.map SourceFile.path).Nodup) {record : Record}
    (listed : record ∈ sources.records scheme) {node : Node}
    (reference : record.referenceNode? = some node) {other : Node}
    (offered : other ∈ (Intake.ofFiles (sources.parsed scheme)).offered)
    (same : other.id = node.id)
    : other = node := by
  have own := Record.node?_of_referenceNode? reference
  have kind := kind_eq_of_mem_offered apart offered (mem_offered_of_node? listed own) same
  have sorted := Intake.sorted_ofFiles (sources.parsed scheme)
  have plain : node.kind ≠ .assertion := Record.ne_assertion_of_node? own
  have member : other ∈ (sources.records scheme).filterMap Record.node? := by
    rw [SourceSet.records, ← sorted.own]
    exact List.mem_filter.mpr ⟨offered, by simp [kind, plain]⟩
  obtain ⟨second, there, found⟩ := List.mem_filterMap.mp member
  have isOther : second.referenceNode? = some other :=
    Record.referenceNode?_of_node? found (kind ▸ Record.kind_of_referenceNode? reference)
  exact List.inj_on_of_nodup_map (references_distinct distinct)
    (List.mem_filterMap.mpr ⟨second, there, isOther⟩)
    (List.mem_filterMap.mpr ⟨record, listed, reference⟩) same

/-- Every reference is kept under its identifier. -/
theorem bare?_of_reference (apart : scheme.Apart)
    (distinct : (sources.files.map SourceFile.path).Nodup) {record : Record}
    (listed : record ∈ sources.records scheme) {node : Node}
    (reference : record.referenceNode? = some node)
    : (Graph.ofSources scheme sources).bare? node.id = some node := by
  have keeps : (Graph.ofSources scheme sources).Keeps
      (Intake.ofFiles (sources.parsed scheme)).offered := Graph.keeps_assemble scheme _
  have offered := mem_offered_of_node? listed (Record.node?_of_referenceNode? reference)
  have present : (Graph.ofSources scheme sources).contains node.id = true :=
    keeps.contains_iff.mpr (List.mem_map_of_mem offered)
  obtain ⟨other, kept⟩ := Graph.contains_iff_bare?.mp present
  have first := kept
  rw [keeps.entries] at first
  rw [kept, eq_of_mem_offered apart distinct listed reference (List.mem_of_find?_eq_some first)
    (Graph.id_of_bare? kept)]

/-- No duplicate has the identifier of a reference, or the reference would stand at two places. -/
theorem id_ne_of_mem_duplicates (apart : scheme.Apart)
    (distinct : (sources.files.map SourceFile.path).Nodup) {record : Record}
    (listed : record ∈ sources.records scheme) {node : Node}
    (reference : record.referenceNode? = some node) {entry : Duplicate}
    (member : entry ∈ (Graph.ofSources scheme sources).duplicates)
    : entry.id ≠ node.id := by
  have keeps : (Graph.ofSources scheme sources).Keeps
      (Intake.ofFiles (sources.parsed scheme)).offered := Graph.keeps_assemble scheme _
  rw [keeps.duplicates] at member
  obtain ⟨first, second, order, same, rfl⟩ := exists_pair_of_mem_repeatsAfter member
  rw [List.nil_append] at order
  intro here
  have isFirst := eq_of_mem_offered apart distinct listed reference
    (order.subset List.mem_cons_self) (same.trans here)
  have isSecond := eq_of_mem_offered apart distinct listed reference
    (order.subset (List.mem_cons_of_mem _ List.mem_cons_self)) here
  have kind := Record.kind_of_referenceNode? reference
  have plain := Record.ne_assertion_of_node? (Record.node?_of_referenceNode? reference)
  have chosen := order.filter (fun node : Node => !decide (node.kind = .assertion))
  rw [(Intake.sorted_ofFiles (sources.parsed scheme)).own, isFirst, isSecond,
    List.filter_eq_self.mpr (by simp [plain])] at chosen
  obtain ⟨a, b, both, ownA, ownB⟩ := exists_pair_of_filterMap chosen
  exact id_ne_of_references distinct both (Record.referenceNode?_of_node? ownA kind)
    (Record.referenceNode?_of_node? ownB kind) rfl

end References

-----------------------------------------------------------------------------------------
-- How many duplicates there are
-----------------------------------------------------------------------------------------

section Counts

/-- The identifiers of the records that are requirements. -/
theorem requirementIds_eq (records : List Record)
    : ((records.filterMap Record.node?).filter (fun node => node.kind = .requirement)).map Node.id
      = (records.filterMap Record.requirement?).map Requirement.id := by
  rw [List.filter_filterMap, List.map_filterMap, List.map_filterMap]
  refine List.filterMap_congr (fun record _ => ?_)
  rw [Record.node?, Record.nodes, Assembly.nodesOf, Record.requirement?]
  cases record.block.content with
  | requirement requirement =>
      simp [Assembly.kind_requirementNode, Assembly.id_requirementNode]
  | journey journey => simp [(Assembly.journeyNode_parts _ _ _).2]
  | codeReference reference => rfl
  | testReference reference => rfl
  | comment text decorative => rfl
  | remainder => rfl

theorem journeyIds_eq (records : List Record)
    : ((records.filterMap Record.node?).filter (fun node => node.kind = .journey)).map Node.id
      = (records.filterMap Record.journey?).map Journey.id := by
  rw [List.filter_filterMap, List.map_filterMap, List.map_filterMap]
  refine List.filterMap_congr (fun record _ => ?_)
  rw [Record.node?, Record.nodes, Assembly.nodesOf, Record.journey?]
  cases record.block.content with
  | requirement requirement => simp [Assembly.kind_requirementNode]
  | journey journey => simp [(Assembly.journeyNode_parts _ _ _).2, Assembly.id_journeyNode]
  | codeReference reference => rfl
  | testReference reference => rfl
  | comment text decorative => rfl
  | remainder => rfl

theorem references_eq (records : List Record)
    : (records.filterMap Record.node?).filter (fun node =>
        !decide (node.kind = .journey) && !decide (node.kind = .requirement))
      = records.filterMap Record.referenceNode? := by
  rw [List.filter_filterMap]
  refine List.filterMap_congr (fun record _ => ?_)
  rw [Record.node?, Record.nodes, Assembly.nodesOf, Record.referenceNode?]
  cases record.block.content with
  | requirement requirement => simp [Assembly.kind_requirementNode]
  | journey journey => simp [(Assembly.journeyNode_parts _ _ _).2]
  | codeReference reference => rfl
  | testReference reference => rfl
  | comment text decorative => rfl
  | remainder => rfl

/-- Among the assertions of one record only letters repeat. -/
theorem repeatCount_assertionNodes (record : Record)
    : repeatCount (record.assertionNodes.map Node.id)
      = (record.requirement?.toList.map (fun requirement =>
          repeatCount (requirement.assertions.map Assertion.letter))).sum := by
  rw [Record.assertionNodes, Record.nodes, Assembly.nodesOf, Record.requirement?]
  cases record.block.content with
  | requirement requirement =>
      have ids
          : (requirement.assertions.map
              (Assembly.assertionNode record.path requirement.id)).map Node.id
            = (requirement.assertions.map Assertion.letter).map
                (fun letter => assertionId requirement.id letter.toString) := by
        rw [List.map_map, List.map_map]
        rfl
      have injective : Function.Injective
          (fun letter : Char => assertionId requirement.id letter.toString) :=
        fun a b same => (assertionId_inj.mp same).2
      simp only [List.tail_cons, ids, repeatCount_map injective, Option.toList_some,
        List.map_singleton, List.sum_singleton]
  | journey journey => rfl
  | codeReference reference => rfl
  | testReference reference => rfl
  | comment text decorative => rfl
  | remainder => rfl

/-- The assertions of records with different identifiers repeat none of each other's. -/
theorem repeatCount_flatMap_assertionNodes {records : List Record}
    (distinct
      : records.Pairwise (fun earlier later =>
          ∀ node, later.node? = some node → node.id ∉ earlier.ids))
    : repeatCount ((records.flatMap Record.assertionNodes).map Node.id)
      = ((records.filterMap Record.requirement?).map (fun requirement =>
          repeatCount (requirement.assertions.map Assertion.letter))).sum := by
  induction records with
  | nil => rfl
  | cons record rest ih =>
      obtain ⟨here, later⟩ := List.pairwise_cons.mp distinct
      rw [List.flatMap_cons, List.map_append, repeatCount_append, ih later,
        repeatCount_assertionNodes, List.filterMap_cons]
      · cases record.requirement? <;> simp
      · intro id own other
        obtain ⟨first, isFirst, rfl⟩ := List.mem_map.mp own
        obtain ⟨second, member, same⟩ := List.mem_map.mp other
        obtain ⟨owner, listed, isSecond⟩ := List.mem_flatMap.mp member
        exact Record.id_ne_of_assertions (here owner listed) isFirst isSecond same.symm

variable {scheme : Scheme} {sources : SourceSet}

/-- There is one duplicate for each requirement and each journey beyond the first of its
identifier, and one for each repeated letter of an accepted requirement. -/
theorem length_duplicates (apart : scheme.Apart)
    (distinct : (sources.files.map SourceFile.path).Nodup)
    : (Graph.ofSources scheme sources).duplicates.length
      = repeatCount (((sources.records scheme).filterMap Record.requirement?).map Requirement.id)
        + repeatCount (((sources.records scheme).filterMap Record.journey?).map Journey.id)
        + (((acceptedRecords (sources.parsed scheme)).filterMap Record.requirement?).map
            (fun requirement =>
              repeatCount (requirement.assertions.map Assertion.letter))).sum := by
  have keeps : (Graph.ofSources scheme sources).Keeps
      (Intake.ofFiles (sources.parsed scheme)).offered := Graph.keeps_assemble scheme _
  have sorted := Intake.sorted_ofFiles (sources.parsed scheme)
  have alike (kind : NodeKind)
      : ∀ a ∈ (Intake.ofFiles (sources.parsed scheme)).offered,
          ∀ b ∈ (Intake.ofFiles (sources.parsed scheme)).offered, a.id = b.id →
            decide (a.kind = kind) = decide (b.kind = kind) := by
    intro a first b second same
    rw [kind_eq_of_mem_offered apart first second same]
  have offered {node : Node} (member : node ∈ (sources.records scheme).filterMap Record.node?)
      : node ∈ (Intake.ofFiles (sources.parsed scheme)).offered := by
    rw [SourceSet.records, ← sorted.own] at member
    exact List.mem_of_mem_filter member
  -- Assertions are set apart first, then requirements, then journeys. References are left.
  have all := repeatCount_map_filter (alike .assertion)
  have own
      : repeatCount (((sources.records scheme).filterMap Record.node?).map Node.id) = _ :=
    repeatCount_map_filter (fun a first b second =>
      alike .requirement a (offered first) b (offered second))
  have others
      : repeatCount ((((sources.records scheme).filterMap Record.node?).filter (fun node =>
          !decide (node.kind = .requirement))).map Node.id) = _ :=
    repeatCount_map_filter (fun a first b second => alike .journey
      a (offered (List.mem_of_mem_filter first)) b (offered (List.mem_of_mem_filter second)))
  have journeys
      : ((sources.records scheme).filterMap Record.node?).filter (fun node =>
          decide (node.kind = .journey) && !decide (node.kind = .requirement))
        = ((sources.records scheme).filterMap Record.node?).filter (fun node =>
            decide (node.kind = .journey)) := by
    refine List.filter_congr (fun node _ => ?_)
    cases node.kind <;> rfl
  rw [sorted.assertions, sorted.own] at all
  rw [requirementIds_eq] at own
  rw [List.filter_filter, List.filter_filter, journeys, journeyIds_eq, references_eq,
    repeatCount_eq_zero (references_distinct distinct)] at others
  have lettered := repeatCount_flatMap_assertionNodes
    (Intake.accepted_pairwise (sources.parsed scheme))
  rw [keeps.duplicates, length_repeats, all, lettered, ← SourceSet.records, own, others]
  rw [acceptedRecords]
  omega

end Counts

-----------------------------------------------------------------------------------------
-- Identifiers of different kinds never collide
-----------------------------------------------------------------------------------------

namespace Graph

/-- Under every configuration that compiles, and if no two files have one path, every reference
in code or a test becomes its own node and none is a duplicate. Each duplicate pairs two
requirements, two journeys, or two assertions of one accepted requirement under one letter, and
there are as many as there are definitions beyond the distinct ones. -/
theorem duplicates_ofSources {config : Config} {limit : Nat} {scheme : Scheme}
    (compiled : config.compileWithin limit = .ok scheme) {sources : SourceSet}
    (distinct : (sources.files.map SourceFile.path).Nodup)
    : let graph := Graph.ofSources scheme sources
      let records := sources.records scheme
      let accepted := acceptedRecords (sources.parsed scheme)
      (∀ record ∈ records, ∀ node, record.referenceNode? = some node →
          graph.bare? node.id = some node ∧ ∀ entry ∈ graph.duplicates, entry.id ≠ node.id)
        ∧ ((records.filterMap Record.referenceNode?).map Node.id).Nodup
        ∧ (∀ entry ∈ graph.duplicates, Duplicate.Pairs records accepted entry)
        ∧ graph.duplicates.length
          = repeatCount ((records.filterMap Record.requirement?).map Requirement.id)
            + repeatCount ((records.filterMap Record.journey?).map Journey.id)
            + ((accepted.filterMap Record.requirement?).map (fun requirement =>
                repeatCount (requirement.assertions.map Assertion.letter))).sum := by
  intro graph records accepted
  have apart := Scheme.apart_of_compile compiled
  refine ⟨?_, references_distinct distinct, ?_, length_duplicates apart distinct⟩
  · intro record listed node reference
    refine ⟨bare?_of_reference apart distinct listed reference, fun entry member => ?_⟩
    exact id_ne_of_mem_duplicates apart distinct listed reference member
  · intro entry member
    exact pairs_of_mem_duplicates apart distinct member

/-- A requirement that is defined in two files, with a letter that it repeats itself, and code
that refers to it. -/
def definedTwice : SourceSet where
  files := [
    ⟨"login.md", "# REQ-p00001: Login\nA. Ask for a name.\nA. Ask for a password.\n"
      ++ "*End* *Login*\n"⟩,
    ⟨"form.md", "# REQ-p00001: Form\nA. Show a form.\n*End* *Form*\n"⟩,
    ⟨"form.rs", "// Implements: REQ-p00001-A\n"⟩]

theorem duplicates_ofSources_definedTwice
    : (definedTwice.files.map SourceFile.path).Nodup
      ∧ (Graph.ofSources Config.defaultScheme definedTwice).duplicates.length = 2
      ∧ (Graph.ofSources Config.defaultScheme definedTwice).contains "code:form.rs:1" = true := by
  have distinct : (definedTwice.files.map SourceFile.path).Nodup := by decide
  obtain ⟨references, -, -, count⟩ := duplicates_ofSources Config.compile_default distinct
  have evaluated
      : repeatCount (((definedTwice.records Config.defaultScheme).filterMap
            Record.requirement?).map Requirement.id) = 1
        ∧ repeatCount (((definedTwice.records Config.defaultScheme).filterMap
            Record.journey?).map Journey.id) = 0
        ∧ (((acceptedRecords (definedTwice.parsed Config.defaultScheme)).filterMap
            Record.requirement?).map (fun requirement =>
              repeatCount (requirement.assertions.map Assertion.letter))).sum = 1
        ∧ ∃ record ∈ definedTwice.records Config.defaultScheme,
            record.referenceNode?.map Node.id = some "code:form.rs:1" := by
    decide +kernel
  obtain ⟨requirements, journeys, letters, record, listed, reference⟩ := evaluated
  obtain ⟨node, found, id⟩ := Option.map_eq_some_iff.mp reference
  refine ⟨distinct, ?_, ?_⟩
  · rw [count, requirements, journeys, letters]
  · exact contains_iff_bare?.mpr ⟨node, id ▸ (references record listed node found).1⟩

end Graph

end Traceability
