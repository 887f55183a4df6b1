import Traceability.Proofs.Graph.Mentions
import Traceability.Proofs.Rule.Spending

/-! How many findings the references of a record have.
A reference has a finding if it fails in something that its record has not mentioned before on
another line. References with one base on one line share a finding.
-/

namespace Traceability

-----------------------------------------------------------------------------------------
-- References that fail
-----------------------------------------------------------------------------------------

namespace Graph

/-- Whether what is mentioned is absent or lacks the letter that is named. -/
def lacks (graph : Graph) (mention : String × List String) : Bool :=
  match graph.node? mention.1 with
  | none => true
  | some target => mention.2.any (fun letter => !(target.list FieldKey.assertions).contains letter)

theorem isBroken_iff_lacks {graph : Graph} {edge : Edge}
    : graph.isBroken edge = true
      ↔ edge.kind ≠ .contains ∧ graph.lacks (edge.target, edge.letters) = true := by
  rw [isBroken_iff, lacks]
  refine and_congr_right fun _ => ?_
  cases graph.node? edge.target with
  | none => simp
  | some target => simp

end Graph

namespace PendingReference

/-- Whether a reference fails to resolve: its base is absent, or its letters are several and one
is no assertion of the base. -/
def fails (graph : Graph) (scheme : Scheme) (reference : PendingReference) : Bool :=
  match graph.node? (reference.base scheme) with
  | none => true
  | some target =>
      1 < (reference.letters scheme).length
      && (reference.letters scheme).any (fun letter =>
          !(target.list FieldKey.assertions).contains letter.toString)

/-- The targets of references, each once. -/
def distinctTargets (references : List PendingReference) : List String :=
  (references.map target).eraseDups

theorem base_congr {scheme : Scheme} {reference other : PendingReference}
    (kind : reference.kind = other.kind) (target : reference.target = other.target)
    : reference.base scheme = other.base scheme := by
  rw [base, base, letters, letters, kind, target]

end PendingReference

namespace Record

/-- The references that a record lists with a line and a kind. -/
def listed (record : Record) (line : Nat) (kind : EdgeKind) : List PendingReference :=
  record.references.filter (fun reference => reference.line = line ∧ reference.kind = kind)

/-- Whether a reference of a record fails in something that the record has not mentioned before
with its kind on another line. -/
def failsFirst (graph : Graph) (scheme : Scheme) (record : Record) (reference : PendingReference)
    : Bool :=
  (reference.mentions scheme).any (fun mention =>
    graph.lacks mention
    && record.firstLine? scheme reference.kind mention = some reference.line)

/-- The references of a record on a line that fail first there. -/
def failing (graph : Graph) (scheme : Scheme) (record : Record) (line : Nat) (kind : EdgeKind)
    : List PendingReference :=
  (record.listed line kind).filter (record.failsFirst graph scheme)

theorem kind_of_mem_failing {graph : Graph} {scheme : Scheme} {record : Record} {line : Nat}
    {kind : EdgeKind} {reference : PendingReference}
    (member : reference ∈ record.failing graph scheme line kind)
    : reference.kind = kind :=
  (of_decide_eq_true (List.mem_filter.mp (List.mem_of_mem_filter member)).2).2

end Record

-----------------------------------------------------------------------------------------
-- Findings about the references of a node
-----------------------------------------------------------------------------------------

theorem EdgeKind.word_inj {kind other : EdgeKind} {rest more : List Char}
    (same : kind.word.toList ++ rest = other.word.toList ++ more)
    : kind = other := by
  have heads := congrArg List.head? same
  have start (kind : EdgeKind) : kind.word.toList ≠ [] := by cases kind <;> decide
  rw [List.head?_append_of_ne_nil _ (start kind), List.head?_append_of_ne_nil _ (start other)]
    at heads
  revert heads
  cases kind <;> cases other <;> decide

/-- Whether a finding is about what a node refers to with a kind on a line. The message begins
with the label of the node and the word of the kind. -/
def Finding.isAbout (node : Node) (line : Nat) (kind : EdgeKind) (finding : Finding) : Bool :=
  finding.nodeId = some node.id
  && finding.line = line
  && (node.label ++ " " ++ kind.word ++ " ").toList.isPrefixOf finding.message.toList

namespace BrokenReference

theorem toList_reason (reference : WrittenReference) (letters : List String)
    : ∃ rest,
        (reason reference letters).toList = reference.kind.word.toList ++ ' ' :: rest := by
  rw [reason]
  split <;> simp

/-- The finding of a reference is about its node, its line and its kind. -/
theorem isAbout_iff_of_tells {graph : Graph} {node : Node} {reference : WrittenReference}
    {finding : Finding} (bare : graph.bare? node.id = some node)
    (tells : Tells graph reference finding) (line : Nat) (kind : EdgeKind)
    : finding.isAbout node line kind = true
      ↔ reference.source = node.id ∧ reference.line = line ∧ reference.kind = kind := by
  obtain ⟨id, source, letters, present, -, place, message⟩ := tells
  have stands : finding.line = reference.line := by
    rw [Finding.line, place]
    rfl
  obtain ⟨rest, written⟩ := toList_reason reference letters
  simp only [Finding.isAbout, Bool.and_eq_true, decide_eq_true_eq, id, stands, Option.some.injEq,
    and_assoc]
  refine and_congr_right fun leaves => and_congr_right fun _ => ?_
  obtain ⟨kept, found, same⟩ := Graph.bare?_eq_some_iff.mp bare
  rw [leaves] at present
  have label : source.label = node.label := by
    rw [Option.some.inj (present.symm.trans found), ← same]
    rfl
  rw [message, label, List.isPrefixOf_iff_prefix]
  simp only [String.toList_append, written, List.append_assoc, List.prefix_append_right_inj]
  constructor
  · rintro ⟨more, read⟩
    rw [List.append_assoc] at read
    exact (EdgeKind.word_inj read).symm
  · rintro rfl
    exact ⟨rest, by simp⟩

variable {scheme : Scheme} {files : List ParsedFile} {record : Record} {node : Node}

/-- A record has a broken reference to a base exactly if it lists one that fails first there. -/
theorem exists_broken_iff (accepted : record ∈ acceptedRecords files)
    (own : record.node? = some node) {line : Nat} {kind : EdgeKind} {target : String}
    : (∃ edge ∈ (Graph.assemble scheme files).edges,
        (Graph.assemble scheme files).isBroken edge = true
        ∧ WrittenReference.ofEdge edge = ⟨node.id, line, kind, target⟩)
      ↔ ∃ reference ∈ record.listed line kind,
          record.failsFirst (Graph.assemble scheme files) scheme reference = true
          ∧ reference.base scheme = target := by
  simp only [Record.listed, Record.failsFirst, List.mem_filter, decide_eq_true_eq,
    List.any_eq_true, Bool.and_eq_true]
  constructor
  · rintro ⟨edge, member, broken, same⟩
    obtain ⟨source, rfl, rfl, rfl⟩ := WrittenReference.mk.inj same
    obtain ⟨written, lacks⟩ := Graph.isBroken_iff_lacks.mp broken
    have first := (Graph.mem_edges_iff_firstLine? accepted own source written).mp member
    obtain ⟨reference, found, onLine⟩ := Option.map_eq_some_iff.mp first
    have made := List.find?_some found
    rw [decide_eq_true_eq] at made
    obtain ⟨isKind, mentioned⟩ := made
    refine ⟨reference, ⟨List.mem_of_find?_eq_some found, onLine, isKind⟩, ?_, ?_⟩
    · exact ⟨_, mentioned, lacks, by rw [isKind, onLine, first]⟩
    · exact (PendingReference.fst_of_mem_mentions mentioned).symm
  · rintro ⟨reference, ⟨member, rfl, rfl⟩, ⟨mention, mentioned, lacks, first⟩, rfl⟩
    obtain ⟨_, -, -, written⟩ := Record.exists_node_of_mem_references member
    have source : (reference.edgeOf mention).source = node.id :=
      Record.source_of_mem_references own member
    refine ⟨reference.edgeOf mention, ?_, Graph.isBroken_iff_lacks.mpr ⟨written, lacks⟩, ?_⟩
    · exact (Graph.mem_edges_iff_firstLine? accepted own source written).mpr first
    · rw [← source, ← PendingReference.fst_of_mem_mentions mentioned]
      rfl

/-- The findings about what a node refers to with a kind on a line are as many as the bases on
that line in which the record of the node fails first. -/
theorem countP_isAbout_eq_bases (context : RuleContext)
    (assembled : context.graph = Graph.assemble scheme files)
    (accepted : record ∈ acceptedRecords files) (own : record.node? = some node) (line : Nat)
    (kind : EdgeKind)
    : (check context).countP (Finding.isAbout node line kind)
      = ((record.failing context.graph scheme line kind).map
          (PendingReference.base scheme)).eraseDups.length := by
  have bare := Graph.bare?_of_accepted scheme accepted own
  let here (reference : WrittenReference) : Bool :=
    reference.source = node.id ∧ reference.line = line ∧ reference.kind = kind
  let references := ((marked context.graph).map Prod.fst).filter here
  have counted : (check context).countP (Finding.isAbout node line kind)
      = references.length := by
    rw [check_eq, List.countP_map, ← List.countP_eq_length_filter, List.countP_map]
    refine List.countP_congr fun entry member => ?_
    obtain ⟨path, -, inFile⟩ := List.mem_flatMap.mp member
    rw [Function.comp_apply, Function.comp_apply, decide_eq_true_eq]
    exact isAbout_iff_of_tells (assembled ▸ bare) (tells_of_mem_ofFile inFile).1 line kind
  have parts {reference : WrittenReference} (member : reference ∈ references)
      : reference = ⟨node.id, line, kind, reference.target⟩ := by
    obtain ⟨source, number, sort⟩ := of_decide_eq_true (List.mem_filter.mp member).2
    rw [← source, ← number, ← sort]
  have nodup : (references.map WrittenReference.target).Nodup := by
    refine List.Nodup.map_on (fun a memA b memB same => ?_) ((marked_nodup _).filter _)
    rw [parts memA, parts memB, same]
  have mem_iff (target : String)
      : target ∈ references.map WrittenReference.target
        ↔ (⟨node.id, line, kind, target⟩ : WrittenReference)
            ∈ (marked context.graph).map Prod.fst := by
    constructor
    · intro member
      obtain ⟨reference, listed, rfl⟩ := List.mem_map.mp member
      exact parts listed ▸ (List.mem_filter.mp listed).1
    · intro member
      exact List.mem_map.mpr
        ⟨_, List.mem_filter.mpr ⟨member, decide_eq_true ⟨rfl, rfl, rfl⟩⟩, rfl⟩
  have present : (Graph.assemble scheme files).contains node.id = true :=
    Graph.contains_iff_bare?.mpr ⟨node, bare⟩
  have targets : references.length = (references.map WrittenReference.target).length :=
    (List.length_map _).symm
  rw [counted, targets]
  refine ((List.perm_ext_iff_of_nodup nodup (nodup_eraseDups _)).mpr fun target => ?_).length_eq
  rw [mem_iff, mem_map_fst_marked_iff, assembled, and_iff_right present,
    exists_broken_iff accepted own, List.mem_eraseDups, List.mem_map]
  simp only [Record.failing, List.mem_filter, and_assoc]

/-- The findings about what a node refers to with a kind on a line are as many as the targets that
its record lists there and that fail first, if their bases differ. -/
theorem countP_isAbout_check (scheme : Scheme) (sources : SourceSet) (coverage : CoverageReport)
    {record : Record} (accepted : record ∈ acceptedRecords (sources.parsed scheme)) {node : Node}
    (own : record.node? = some node) (line : Nat) (kind : EdgeKind)
    (apart
      : ∀ reference ∈ record.failing (Graph.ofSources scheme sources) scheme line kind,
        ∀ other ∈ record.failing (Graph.ofSources scheme sources) scheme line kind,
          reference.base scheme = other.base scheme → reference.target = other.target)
    : (check ⟨Graph.ofSources scheme sources, scheme, coverage⟩).countP
        (Finding.isAbout node line kind)
      = (PendingReference.distinctTargets
          (record.failing (Graph.ofSources scheme sources) scheme line kind)).length := by
  rw [countP_isAbout_eq_bases _ rfl accepted own]
  refine length_eraseDups_map_eq fun reference member other more => ?_
  refine ⟨apart reference member other more, PendingReference.base_congr ?_⟩
  rw [Record.kind_of_mem_failing member, Record.kind_of_mem_failing more]

/-- Code whose marker names two targets on one continuation line and one on the next. -/
def continuedTwice : SourceSet where
  files := [
    ⟨"login.md", "# REQ-p00001: Login\n\n## Assertions\n\nA. One.\n\n*End* *Login*\n"⟩,
    ⟨"login.py", "# Implements:\n# REQ-p00001-A-B REQ-p09999-A-B\n# REQ-p09999-A-C\n"⟩]

theorem countP_isAbout_check_continuedTwice
    : ∃ record ∈ acceptedRecords (continuedTwice.parsed Config.defaultScheme),
        ∃ node failing,
          record.node? = some node
          ∧ record.failing (Graph.ofSources Config.defaultScheme continuedTwice)
              Config.defaultScheme 2 .implements = failing
          ∧ (∀ reference ∈ failing, ∀ other ∈ failing,
              reference.base Config.defaultScheme = other.base Config.defaultScheme
              → reference.target = other.target)
          ∧ PendingReference.distinctTargets failing = ["REQ-p00001-A-B", "REQ-p09999-A-B"]
          ∧ (check ⟨Graph.ofSources Config.defaultScheme continuedTwice, Config.defaultScheme,
                (Graph.ofSources Config.defaultScheme continuedTwice).coverage⟩).countP
              (Finding.isAbout node 2 .implements)
            = 2 := by
  have evaluated
      : ∃ record ∈ acceptedRecords (continuedTwice.parsed Config.defaultScheme),
          record.node?.isSome = true
          ∧ (∀ reference ∈ record.failing (Graph.ofSources Config.defaultScheme continuedTwice)
                Config.defaultScheme 2 .implements,
              ∀ other ∈ record.failing (Graph.ofSources Config.defaultScheme continuedTwice)
                Config.defaultScheme 2 .implements,
                reference.base Config.defaultScheme = other.base Config.defaultScheme
                → reference.target = other.target)
          ∧ PendingReference.distinctTargets (record.failing
                (Graph.ofSources Config.defaultScheme continuedTwice) Config.defaultScheme 2
                .implements)
            = ["REQ-p00001-A-B", "REQ-p09999-A-B"] := by
    decide +kernel
  obtain ⟨record, accepted, isSome, apart, targets⟩ := evaluated
  obtain ⟨node, own⟩ := Option.isSome_iff_exists.mp isSome
  refine ⟨record, accepted, node, _, own, rfl, apart, targets, ?_⟩
  rw [countP_isAbout_check Config.defaultScheme continuedTwice _ accepted own 2 .implements apart,
    targets]
  rfl

/-- Code whose marker names one target on two continuation lines. -/
def continuedAgain : SourceSet where
  files := [⟨"login.py", "# Implements:\n# REQ-p09999\n# REQ-p09999\n"⟩]

/-- So a target that fails again on a later line has no finding there. -/
theorem not_countP_fails_continuedAgain
    : ¬ ∀ (config : Config) (scheme : Scheme), config.compile = .ok scheme →
        ∀ sources : SourceSet, (sources.files.map SourceFile.path).Nodup →
        ∀ coverage : CoverageReport,
        ∀ record ∈ acceptedRecords (sources.parsed scheme),
        ∀ node, record.node? = some node →
        ∀ (line : Nat) (kind : EdgeKind),
          (check ⟨Graph.ofSources scheme sources, scheme, coverage⟩).countP
            (Finding.isAbout node line kind)
          = (PendingReference.distinctTargets ((record.listed line kind).filter
              (PendingReference.fails (Graph.ofSources scheme sources) scheme))).length := by
  intro all
  have evaluated
      : ∃ record ∈ acceptedRecords (continuedAgain.parsed Config.defaultScheme),
          record.node?.isSome = true
          ∧ record.failing (Graph.ofSources Config.defaultScheme continuedAgain)
              Config.defaultScheme 3 .implements = []
          ∧ (PendingReference.distinctTargets ((record.listed 3 .implements).filter
              (PendingReference.fails (Graph.ofSources Config.defaultScheme continuedAgain)
                Config.defaultScheme))).length = 1 := by
    decide +kernel
  obtain ⟨record, accepted, isSome, none, one⟩ := evaluated
  obtain ⟨node, own⟩ := Option.isSome_iff_exists.mp isSome
  have count := all {} Config.defaultScheme Config.compile_default continuedAgain
    (by decide +kernel) (Graph.ofSources Config.defaultScheme continuedAgain).coverage record
    accepted node own 3 .implements
  rw [countP_isAbout_eq_bases _ rfl accepted own, none, one] at count
  cases count

end BrokenReference

end Traceability
