import Traceability.Proofs.Graph.Typing
import Traceability.Proofs.Line.Parts

/-! On which lines references are written.
A reference in code or in a test is numbered by the line on which its target stands. What a
requirement refers to stands on its metadata line, but is numbered by the heading above it.
-/

namespace Traceability

-----------------------------------------------------------------------------------------
-- Targets of blocks
-----------------------------------------------------------------------------------------

/-- A target stands on the line with its number, with underscores if the reference is labelled by
the function that the line defines. -/
def Target.StandsOn (label : Option String) (lines : List Line) (target : Target) : Prop :=
  ∃ line ∈ lines,
    line.number = target.line
    ∧ match label with
      | none => target.id.toList <:+: line.text.toList
      | some name =>
          Definition.name? line.text = some name.toList
          ∧ Definition.underscored target.id.toList <:+: line.text.toList

/-- A target stands on a metadata line between the first line of a block and the last. -/
def Block.ListsTarget (lines : List Line) (block : Block) (target : String) : Prop :=
  ∃ line ∈ lines,
    block.startLine < line.number
    ∧ line.number < block.endLine
    ∧ Claim.Requirement.isMetadata line = true
    ∧ target.toList <:+: line.text.toList

/-- What a block refers to stands on its lines. -/
def Block.Written (lines : List Line) (block : Block) : Prop :=
  match block.content with
  | .requirement requirement =>
      ∀ kind, ∀ target ∈ requirement.targets kind, block.ListsTarget lines target
  | .codeReference reference =>
      ∀ target ∈ reference.targets, target.StandsOn none lines
  | .testReference reference =>
      ∀ target ∈ reference.targets, target.StandsOn reference.label lines
  | _ => True

theorem Target.StandsOn.subset {label : Option String} {lines more : List Line} {target : Target}
    (stands : target.StandsOn label lines) (sub : lines ⊆ more)
    : target.StandsOn label more := by
  obtain ⟨line, listed, here⟩ := stands
  exact ⟨line, sub listed, here⟩

theorem Block.Written.subset {lines more : List Line} {block : Block}
    (written : block.Written lines) (sub : lines ⊆ more)
    : block.Written more := by
  rw [Written] at written ⊢
  split
  · next content =>
      rw [content] at written
      intro kind target listed
      obtain ⟨line, own, here⟩ := written kind target listed
      exact ⟨line, sub own, here⟩
  · next content =>
      rw [content] at written
      exact fun target own => (written target own).subset sub
  · next content =>
      rw [content] at written
      exact fun target own => (written target own).subset sub
  · trivial

namespace Claim

namespace Reference

variable {lines rest : List Line} {line : Line}

theorem standsOn_of_mem_targetsOn (listed : line ∈ lines) {words : List (List Char)}
    (parts : ∀ word ∈ words, word <:+: line.text.toList)
    : ∀ target ∈ targetsOn line.number words, target.StandsOn none lines := by
  intro target member
  obtain ⟨word, own, rfl⟩ := List.mem_map.mp member
  refine ⟨line, listed, rfl, ?_⟩
  simpa only [String.toList_ofList] using parts word own

/-- The targets of continuation lines stand on those lines. -/
theorem standsOn_of_mem_continuations {idPrefix : String} {targets : List Target}
    (member : targets ∈ continuations idPrefix line rest)
    : ∀ target ∈ targets, target.StandsOn none rest := by
  obtain ⟨next, listed, read⟩ := exists_of_mem_continuations member
  obtain ⟨behind, continued, read⟩ := Option.bind_eq_some_iff.mp read
  obtain ⟨-, same⟩ := Option.ite_none_right_eq_some.mp read
  rw [← Option.some.inj same]
  refine standsOn_of_mem_targetsOn listed (fun word own => ?_)
  exact (Marker.infix_of_mem_words own).trans (Marker.suffix_of_continuation? continued).isInfix

theorem standsOn_of_marked? {idPrefix keyword : String} {count : Nat} {targets : List Target}
    (marked : marked? idPrefix keyword line rest = some (count, targets))
    : ∀ target ∈ targets, target.StandsOn none (line :: rest) := by
  obtain ⟨tail, found, ⟨-, rfl⟩ | ⟨-, rfl⟩⟩ := marked?_cases marked
  · intro target member
    obtain ⟨list, continued, own⟩ := List.mem_flatten.mp member
    exact (standsOn_of_mem_continuations continued target own).subset
      (List.subset_cons_self line rest)
  · refine standsOn_of_mem_targetsOn List.mem_cons_self (fun word named => ?_)
    exact (Marker.infix_of_mem_words (List.mem_of_mem_filter named)).trans
      (Marker.suffix_of_rest? found).isInfix

theorem standsOn_of_markers {make : Traceability.Reference → Content} {idPrefix keyword : String}
    {block : Block} (member : block ∈ markers make idPrefix keyword lines)
    : ∃ targets,
        block.content = make ⟨targets, none⟩
        ∧ ∀ target ∈ targets, target.StandsOn none lines := by
  obtain ⟨line, rest, count, targets, behind, marked, rfl⟩ := mem_markers member
  exact ⟨targets, rfl,
    fun target own => (standsOn_of_marked? marked target own).subset behind.subset⟩

/-- The identifiers of a function name stand on its line, which defines the function. -/
theorem standsOn_of_ofDefinition? {scheme : Scheme} (listed : line ∈ lines) {block : Block}
    (defined : ofDefinition? scheme line = some block)
    : ∃ reference,
        block.content = .testReference reference
        ∧ ∀ target ∈ reference.targets, target.StandsOn reference.label lines := by
  obtain ⟨name, named, defined⟩ := Option.bind_eq_some_iff.mp defined
  split at defined
  · split at defined
    · cases defined
    · obtain rfl := Option.some.inj defined
      refine ⟨_, rfl, fun target member => ?_⟩
      obtain ⟨id, own, rfl⟩ := List.mem_map.mp member
      obtain ⟨part, plain⟩ := Definition.name?_spec named
      refine ⟨line, listed, rfl, ?_⟩
      simp only [String.toList_ofList]
      exact ⟨named, (Definition.infix_of_mem_idsWithin plain own).trans part⟩
  · cases defined

end Reference

theorem standsOn_of_testReference {context : ClaimContext} {lines : List Line} {block : Block}
    (member : block ∈ testReference.claim context lines)
    : ∃ reference,
        block.content = .testReference reference
        ∧ ∀ target ∈ reference.targets, target.StandsOn reference.label lines := by
  rcases cases_of_mem_testReference member with marked | ⟨line, listed, defined⟩
  · obtain ⟨targets, content, stands⟩ := Reference.standsOn_of_markers marked
    exact ⟨_, content, stands⟩
  · exact Reference.standsOn_of_ofDefinition? listed defined

namespace Requirement

/-- What a requirement lists stands on its metadata line. -/
theorem exists_metadata_of_mem_targets {heading : Heading} {inner : List Line} {last : Line}
    {kind : EdgeKind} {target : String}
    (listed : target ∈ (ofBlock heading inner last).targets kind)
    : ∃ line ∈ inner, isMetadata line = true ∧ target.toList <:+: line.text.toList := by
  let fields := ((inner.dropWhile (fun line => !isMetadata line)).head?.map (fun line =>
    Field.ofLine line.text)).getD []
  have key : ∃ key, target ∈ targets fields key := by
    cases kind with
    | implements => exact ⟨"implements", listed⟩
    | refines => exact ⟨"refines", listed⟩
    | addresses => exact ⟨"addresses", listed⟩
    | validates => cases listed
    | contains => cases listed
  obtain ⟨key, own⟩ := key
  cases first : (inner.dropWhile (fun line => !isMetadata line)).head? with
  | none =>
      simp only [fields, first] at own
      cases own
  | some line =>
      simp only [fields, first] at own
      refine ⟨line, (List.dropWhile_sublist _).mem (List.mem_of_head? first), ?_,
        infix_of_mem_targets own⟩
      have found := List.head?_dropWhile_not (fun line => !isMetadata line) inner
      rw [first] at found
      simpa using found

/-- The metadata line stands between the heading and the closing marker. -/
theorem written_of_mem_claim {context : ClaimContext} {lines : List Line}
    (ascending : Line.Ascending lines) {block : Block}
    (member : block ∈ requirement.claim context lines)
    : block.Written lines := by
  obtain ⟨line, rest, count, content, behind, opened, rfl⟩ := Block.mem_sweep member
  obtain ⟨heading, inner, last, -, closed, rfl, rfl⟩ := of_opens? opened
  obtain ⟨further, rfl, -, -, -⟩ := Line.upTo?_spec closed
  intro kind target listed
  obtain ⟨other, own, isMetadata, stands⟩ := exists_metadata_of_mem_targets listed
  have order := List.pairwise_cons.mp (ascending.sublist behind.sublist)
  refine ⟨other, behind.mem (List.mem_cons_of_mem line (List.mem_append_left _ own)), ?_, ?_,
    isMetadata, stands⟩
  · exact order.1 other (List.mem_append_left _ own)
  · rw [Block.endLine_ofLines_closed]
    exact (List.pairwise_append.mp order.2).2.2 other own last List.mem_cons_self

end Requirement

end Claim

/-- What the blocks of a file refer to stands on its lines. -/
theorem Registry.written_of_mem_blocks {context : ClaimContext} {lines : List Line}
    (ascending : Line.Ascending lines) {block : Block}
    (member : block ∈ standard.blocks context lines)
    : block.Written lines := by
  obtain ⟨claimant, known, free, sub, claimed⟩ := mem_blocks_claim member
  refine Block.Written.subset ?_ sub.subset
  have sort := Claim.sort_of_mem_claim known claimed
  rw [Block.Written]
  split
  · next requirement content =>
      simp only [content] at sort
      subst sort
      have written := Claim.Requirement.written_of_mem_claim (ascending.sublist sub) claimed
      simpa only [Block.Written, content] using written
  · next reference content =>
      simp only [content] at sort
      subst sort
      obtain ⟨targets, own, stands⟩ := Claim.Reference.standsOn_of_markers claimed
      rw [content] at own
      exact Content.codeReference.inj own ▸ stands
  · next reference content =>
      simp only [content] at sort
      subst sort
      obtain ⟨other, own, stands⟩ := Claim.standsOn_of_testReference claimed
      rw [content] at own
      exact Content.testReference.inj own ▸ stands
  · trivial

-----------------------------------------------------------------------------------------
-- Edges
-----------------------------------------------------------------------------------------

/-- Where the target of an edge stands in the file of its source, and which line the edge has. -/
inductive Edge.Placed (lines : List Line) (source : Node) (edge : Edge) (target : String) : Prop
  | marker {line : Line} (kind : source.kind = .code ∨ source.kind = .test)
    (listed : line ∈ lines) (number : line.number = edge.line)
    (stands : target.toList <:+: line.text.toList)
    : Placed lines source edge target
  | functionName {line : Line} (kind : source.kind = .test) (listed : line ∈ lines)
    (number : line.number = edge.line)
    (defines : Definition.name? line.text = some source.label.toList)
    (stands : Definition.underscored target.toList <:+: line.text.toList)
    : Placed lines source edge target
  | metadata {line : Line} (kind : source.kind = .requirement) (listed : line ∈ lines)
    (heading : edge.line = source.source.startLine) (below : edge.line < line.number)
    (inside : line.number < source.source.endLine)
    (isMetadata : Claim.Requirement.isMetadata line = true)
    (stands : target.toList <:+: line.text.toList)
    : Placed lines source edge target

/-- Edges between nodes say nothing of their place. -/
theorem Edge.Placed.of_bare {lines : List Line} {source : Node} {edge : Edge} {target : String}
    (placed : edge.Placed lines source.bare target)
    : edge.Placed lines source target := by
  cases placed with
  | marker kind listed number stands => exact .marker kind listed number stands
  | functionName kind listed number defines stands =>
      exact .functionName kind listed number defines stands
  | metadata kind listed heading below inside isMetadata stands =>
      exact .metadata kind listed heading below inside isMetadata stands

theorem Assembly.kind_of_mem_linksOf {block : Block} {edge : Edge} (member : edge ∈ linksOf block)
    : edge.kind = .contains := by
  rw [linksOf] at member
  split at member
  · obtain ⟨assertion, -, rfl⟩ := List.mem_map.mp member
    rfl
  · cases member

namespace PendingReference

theorem line_of_mem_edges {scheme : Scheme} {reference : PendingReference} {edge : Edge}
    (member : edge ∈ reference.edges scheme)
    : edge.line = reference.line := by
  simp only [edges] at member
  generalize (if reference.kind = .addresses then [] else _ : List Char) = letters at member
  split at member
  · exact List.mem_singleton.mp member ▸ rfl
  · obtain ⟨letter, -, rfl⟩ := List.mem_map.mp member
    rfl

/-- A reference is all that its edges tell of it, and its target. -/
theorem eq_of_mem_edges {scheme : Scheme} {reference : PendingReference} {edge : Edge}
    (member : edge ∈ reference.edges scheme)
    : reference = ⟨edge.source, reference.target, edge.kind, edge.line⟩ := by
  rw [Assembly.source_of_mem_edges member, (cases_of_mem_edges member).1, line_of_mem_edges member]

end PendingReference

namespace Record

/-- What a record refers to is placed on the lines of its file. -/
theorem placed_of_reference {lines : List Line} {record : Record}
    (written : record.block.Written lines) {reference : PendingReference}
    (own : reference ∈ record.references) {edge : Edge} (line : edge.line = reference.line)
    : ∃ node,
        record.node? = some node
        ∧ node.id = reference.source
        ∧ node.source.path = record.path
        ∧ edge.Placed lines node reference.target := by
  rw [Block.Written] at written
  rw [references, Assembly.referencesOf] at own
  split at own
  · next requirement content =>
      simp only [content] at written
      obtain ⟨source, number, listed⟩ := Assembly.mem_declared_iff.mp own
      obtain ⟨other, mem, below, inside, isMetadata, stands⟩ := written _ _ listed
      have isRequirement : record.requirement? = some requirement := by
        rw [requirement?, content]
      have place := Assembly.source_requirementNode record.path record.block requirement
      refine ⟨_, node?_of_requirement? isRequirement, ?_, ?_, ?_⟩
      · rw [Assembly.id_requirementNode, source]
      · rw [place]
      · refine .metadata (Assembly.kind_requirementNode _ _ _) mem ?_ ?_ ?_ isMetadata stands
        · rw [place, line, number]
        · rw [line, number]
          exact below
        · rw [place]
          exact inside
  · next reference content =>
      simp only [content] at written
      obtain ⟨target, listed, rfl⟩ := List.mem_map.mp own
      obtain ⟨other, mem, number, stands⟩ := written target listed
      have isReference
          : record.referenceNode?
            = some (Assembly.referenceNode .code record.path record.block reference) := by
        rw [referenceNode?, content]
      exact ⟨_, node?_of_referenceNode? isReference, rfl, rfl,
        .marker (Or.inl rfl) mem (number.trans line.symm) stands⟩
  · next reference content =>
      simp only [content] at written
      obtain ⟨target, listed, rfl⟩ := List.mem_map.mp own
      obtain ⟨other, mem, number, stands⟩ := written target listed
      have isReference
          : record.referenceNode?
            = some (Assembly.referenceNode .test record.path record.block reference) := by
        rw [referenceNode?, content]
      refine ⟨_, node?_of_referenceNode? isReference, rfl, rfl, ?_⟩
      cases label : reference.label with
      | none =>
          rw [label] at stands
          exact .marker (Or.inr rfl) mem (number.trans line.symm) stands
      | some name =>
          rw [label] at stands
          have labelled
              : (Assembly.referenceNode .test record.path record.block reference).label = name :=
            congrArg (Option.getD · _) label
          refine .functionName rfl mem (number.trans line.symm) ?_ stands.2
          rw [labelled]
          exact stands.1
  · cases own

end Record

namespace Graph

/-- Every reference in code or in a test has the line on which its target stands, and what a
requirement refers to has the line of its heading, while it stands on the metadata line. -/
theorem exists_placed_of_mem_edges (scheme : Scheme) (sources : SourceSet) {edge : Edge}
    (member : edge ∈ (ofSources scheme sources).edges) (written : edge.kind ≠ .contains)
    : ∃ source file target,
        (ofSources scheme sources).node? edge.source = some source
        ∧ file ∈ sources.files
        ∧ file.path = source.source.path
        ∧ edge ∈ PendingReference.edges scheme ⟨edge.source, target, edge.kind, edge.line⟩
        ∧ edge.Placed (Line.ofText file.text) source target := by
  obtain ⟨record, accepted, link | ⟨reference, own, within⟩⟩ := exists_record_of_mem_edges member
  · exact absurd (Assembly.kind_of_mem_linksOf link) written
  · obtain ⟨parsed, read, listed⟩ := List.mem_flatMap.mp (mem_records_of_accepted accepted)
    obtain ⟨file, mem, rfl⟩ := List.mem_map.mp read
    obtain ⟨block, inFile, rfl⟩ := List.mem_map.mp listed
    have stands := Registry.written_of_mem_blocks (Line.ascending_ofText file.text) inFile
    obtain ⟨entry, isEntry, id, path, placed⟩ :=
      Record.placed_of_reference stands own (PendingReference.line_of_mem_edges within)
    obtain ⟨source, found, rfl⟩ := exists_node_of_accepted accepted isEntry
    refine ⟨source, file, reference.target, ?_, mem, path.symm, ?_, ?_⟩
    · rw [Assembly.source_of_mem_edges within, ← id]
      exact found
    · rw [← PendingReference.eq_of_mem_edges within]
      exact within
    · exact placed.of_bare

/-- A requirement that lists its parent on the line below its heading, and code and a test that
refer to the requirement. -/
def listedBelow : SourceSet where
  files := [
    ⟨"login.md", "# REQ-p00001: Login\n**Level**: PRD | **Implements**: REQ-p00002\n"
      ++ "*End* *Login*\n"⟩,
    ⟨"login.rs", "// Implements: REQ-p00001-A-B\n"⟩,
    ⟨"test_login.py", "def test_REQ_p00001_A():\n"⟩]

/-- The edges of the requirement, of the code and of the test. -/
def listedBelowEdges : List Edge := [
  ⟨"REQ-p00001", "REQ-p00002", .implements, [], 1⟩,
  ⟨"code:login.rs:1", "REQ-p00001", .implements, ["A"], 1⟩,
  ⟨"code:login.rs:1", "REQ-p00001", .implements, ["B"], 1⟩,
  ⟨"test:test_login.py:1", "REQ-p00001-A", .validates, [], 1⟩]

theorem exists_placed_of_mem_edges_listedBelow
    : (∀ edge ∈ listedBelowEdges,
        edge ∈ (ofSources Config.defaultScheme listedBelow).edges ∧ edge.kind ≠ .contains)
      ∧ ∀ edge ∈ listedBelowEdges,
          ∃ source file target,
            (ofSources Config.defaultScheme listedBelow).node? edge.source = some source
            ∧ file ∈ listedBelow.files
            ∧ file.path = source.source.path
            ∧ edge
              ∈ PendingReference.edges Config.defaultScheme
                  ⟨edge.source, target, edge.kind, edge.line⟩
            ∧ edge.Placed (Line.ofText file.text) source target := by
  have present
      : ∀ edge ∈ listedBelowEdges,
          edge ∈ (ofSources Config.defaultScheme listedBelow).edges.toList
          ∧ edge.kind ≠ .contains := by
    decide +kernel
  refine ⟨fun edge listed => (present edge listed).imp_left Array.mem_toList_iff.mp, ?_⟩
  intro edge listed
  obtain ⟨member, written⟩ := present edge listed
  exact exists_placed_of_mem_edges Config.defaultScheme listedBelow
    (Array.mem_toList_iff.mp member) written

/-- So the line of an edge need not be one on which its target stands. -/
theorem not_on_edge_line_listedBelow
    : ¬ ∀ (config : Config) (scheme : Scheme), config.compile = .ok scheme →
        ∀ sources : SourceSet, (sources.files.map SourceFile.path).Nodup →
        ∀ edge ∈ (ofSources scheme sources).edges, edge.kind ≠ .contains →
          ∃ source file target,
            (ofSources scheme sources).node? edge.source = some source
            ∧ file ∈ sources.files
            ∧ file.path = source.source.path
            ∧ edge ∈ PendingReference.edges scheme ⟨edge.source, target, edge.kind, edge.line⟩
            ∧ ∃ line ∈ Line.ofText file.text,
                line.number = edge.line
                ∧ (target.toList <:+: line.text.toList
                  ∨ Definition.underscored target.toList <:+: line.text.toList) := by
  intro all
  let upward : Edge := ⟨"REQ-p00001", "REQ-p00002", .implements, [], 1⟩
  have present : upward ∈ (ofSources Config.defaultScheme listedBelow).edges.toList := by
    decide +kernel
  obtain ⟨source, file, target, found, mem, path, within, line, listed, number, stands⟩ :=
    all {} Config.defaultScheme Config.compile_default listedBelow (by decide +kernel) upward
      (Array.mem_toList_iff.mp present) (by decide)
  have isTarget : target = "REQ-p00002" := by
    rcases (PendingReference.cases_of_mem_edges within).2 with ⟨-, same⟩ | ⟨-, ⟨letter, letters⟩, -⟩
    · exact same.symm
    · cases letters
  have place
      : ((ofSources Config.defaultScheme listedBelow).node? "REQ-p00001").map
          (fun node => node.source.path)
        = some "login.md" := by
    decide +kernel
  rw [found, Option.map_some, Option.some.injEq, ← path] at place
  have elsewhere
      : ∀ file ∈ listedBelow.files, file.path = "login.md" →
          ∀ line ∈ Line.ofText file.text, line.number = 1 →
            ¬ ("REQ-p00002".toList <:+: line.text.toList)
            ∧ ¬ (Definition.underscored "REQ-p00002".toList <:+: line.text.toList) := by
    decide +kernel
  rw [isTarget] at stands
  obtain ⟨plain, underscored⟩ := elsewhere file mem place line listed number
  exact stands.elim plain underscored

end Graph

end Traceability
