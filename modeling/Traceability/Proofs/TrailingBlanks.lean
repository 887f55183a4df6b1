import Traceability.Proofs.Config.Compile
import Traceability.Proofs.Passing
import Traceability.Proofs.Rule.Plain

/-! Runs on files with spaces and tabs at the ends of lines.
No reader of lines sees them, so the blocks of a file stay but for the layout of bodies and closing
markers, and nothing that a run reports depends on that layout.
-/

namespace Traceability

open Text

-----------------------------------------------------------------------------------------
-- Padded texts
-----------------------------------------------------------------------------------------

/-- The content of a row with spaces and tabs after it. -/
def Text.padRow (padding : Nat → Padding) (number : Nat) (content : List Char) : List Char :=
  content ++ (padding number).chars

/-- The text with spaces and tabs after its lines, before the ends of the lines. -/
def Text.padLines (padding : Nat → Padding) (text : String) : String :=
  String.ofList (reviseRows (padRow padding) 1 (pieces text.toList)).flatten

/-- The sources with spaces and tabs after the lines of each file, by the position of the file and
the number of the line. -/
def SourceSet.pad (padding : Nat → Nat → Padding) (sources : SourceSet) : SourceSet :=
  { sources with
    files := sources.files.mapIdx (fun position file =>
      { file with text := padLines (padding position) file.text }) }

theorem Text.keepsLines_padRow (padding : Nat → Padding) : KeepsLines (padRow padding) := by
  intro number content inline
  constructor
  · exact (padded_append content (padding number)).inline inline
  · exact fun nonempty => List.append_ne_nil_of_left_ne_nil nonempty _

theorem padsLines_padRow (padding : Nat → Padding)
    : PadsLines (Line.revise · (padRow padding)) where
  number _ := rfl
  padded line := by
    rw [Line.revise, String.toList_ofList]
    exact padded_append _ _

theorem Line.allInline_ofText {text : String} (feeds : FeedsAfterReturns text.toList)
    : AllInline (ofText text) := by
  intro line member
  have listed := (getElem?_of_mem_numbered member).2
  exact inline_of_mem_lines feeds _ (List.mem_of_getElem? listed)

/-- What is read from a file stays but for the layout of requirements. -/
theorem Registry.parseFile_padLines {scheme : Scheme} (readable : scheme.Readable)
    (padding : Nat → Padding) (path : String) {text : String}
    (feeds : FeedsAfterReturns text.toList)
    : (standard.parseFile scheme path (padLines padding text)).plain
      = (standard.parseFile scheme path text).plain := by
  have lines : Line.ofText (padLines padding text)
      = (Line.ofText text).map (Line.revise · (padRow padding)) :=
    Line.ofText_reviseRows (keepsLines_padRow padding) feeds
  have pads := padsLines_padRow padding
  have blocks := blocks_padded pads readable path (Line.allInline_ofText feeds)
  have suppressions := Suppression.scan_padded pads (Line.ofText text)
  simp only [ParsedFile.plain, parseFile, lines, List.length_map, blocks, suppressions]

-----------------------------------------------------------------------------------------
-- Compiled configurations
-----------------------------------------------------------------------------------------

theorem Text.unpadded_of_alphanum {word : List Char}
    (alphanum : ∀ c ∈ word, c.isAlphanum = true)
    : Unpadded word :=
  ⟨fun member => absurd (alphanum _ member) (by decide),
    fun member => absurd (alphanum _ member) (by decide)⟩

/-- A compiled configuration has what readers of lines rely on. -/
theorem Config.readable_of_compile {config : Config} {limit : Nat} {scheme : Scheme}
    (compiled : config.compileWithin limit = .ok scheme)
    : scheme.Readable := by
  obtain ⟨idPrefix, journeyPrefix, -⟩ := prefixes_of_compile compiled
  have compiles := compilesTo_of_compile compiled
  constructor
  · exact unpadded_of_alphanum idPrefix
  · exact unpadded_of_alphanum journeyPrefix
  · exact idDigits_of_compile compiled
  · rw [compiles.implementsKeyword, String.toList_ofList]
    exact endsSolid_trim _
  · rw [compiles.validatesKeyword, String.toList_ofList]
    exact endsSolid_trim _

-----------------------------------------------------------------------------------------
-- Runs
-----------------------------------------------------------------------------------------

theorem Graph.plain_ofSources_pad {scheme : Scheme} (readable : scheme.Readable)
    {sources : SourceSet} (feeds : ∀ file ∈ sources.files, FeedsAfterReturns file.text.toList)
    (padding : Nat → Nat → Padding)
    : (ofSources scheme (sources.pad padding)).plain = (ofSources scheme sources).plain := by
  refine plain_assemble_congr scheme ?_
  rw [SourceSet.pad, List.map_map, List.map_map]
  refine List.ext_getElem? (fun position => ?_)
  simp only [List.getElem?_map, List.getElem?_mapIdx, Option.map_map]
  refine Option.map_congr (fun file here => ?_)
  exact Registry.parseFile_padLines readable _ _ (feeds file (List.mem_of_getElem? here))

namespace Run

/-- Both runs report the same, and their graphs keep the same apart from the layout of bodies and
closing markers. The status of every hash is among the metrics. -/
structure SameButLayout (run other : Run) : Prop where
  coverage : other.coverage = run.coverage
  report : other.report = run.report
  metrics : other.graph.metrics = run.graph.metrics
  graph : other.graph.plain = run.graph.plain

/-- The plain graph of a run follows from the plain graph that is assembled. -/
theorem plain_graph_eq (scheme : Scheme) {sources other : SourceSet}
    (same : (Graph.ofSources scheme other).plain = (Graph.ofSources scheme sources).plain)
    (changes : Option ChangeSummary)
    : (ofSources scheme Rule.standard other changes).graph.plain
      = (ofSources scheme Rule.standard sources changes).graph.plain := by
  have coverage := Graph.coverage_eq_of_plain same
  cases changes with
  | none =>
      simp only [ofSources, ← Graph.recordHashes_plain, ← Graph.recordCoverage_plain, same,
        coverage]
  | some summary =>
      simp only [ofSources, ← Graph.recordChanges_plain, ← Graph.recordHashes_plain,
        ← Graph.recordCoverage_plain, same, coverage]

/-- Spaces and tabs at the ends of lines make no difference to a run, if every carriage return
belongs to the end of a line. -/
theorem sameButLayout_pad {config : Config} {limit : Nat} {scheme : Scheme}
    (compiled : config.compileWithin limit = .ok scheme) {sources : SourceSet}
    (feeds : ∀ file ∈ sources.files, FeedsAfterReturns file.text.toList)
    (padding : Nat → Nat → Padding) (changes : Option ChangeSummary)
    : (ofSources scheme Rule.standard sources changes).SameButLayout
        (ofSources scheme Rule.standard (sources.pad padding) changes) := by
  have same := Graph.plain_ofSources_pad (Config.readable_of_compile compiled) feeds padding
  have graph := plain_graph_eq scheme same changes
  have metrics
      : (ofSources scheme Rule.standard (sources.pad padding) changes).graph.plain.metrics
        = (ofSources scheme Rule.standard sources changes).graph.plain.metrics := by
    rw [graph]
  have coverage := Graph.coverage_eq_of_plain same
  have failures : (sources.pad padding).failures = sources.failures := rfl
  refine ⟨coverage, ?_, metrics, graph⟩
  rw [report_ofSources, report_ofSources, coverage, failures, Rule.report_eq_of_plain same]

/-- A requirement with line ends of two kinds, and a marker that refers to it. -/
def asTyped : SourceSet where
  files := [
    ⟨"login.md", "# REQ-p00001: Login\r\n**Level**: PRD | **Status**: Active\r\n"
      ++ "A. Ask for a name.\r\n\r\n*End* *Login* | **Hash**: 0123abcd\r\n"⟩,
    ⟨"login.rs", "// Implements: REQ-p00001-A\nfn login() {}"⟩]

/-- A tab after every other line, and a space after each of the others. -/
def straggling (_ number : Nat) : Padding :=
  if number % 2 = 0 then ⟨['\t'], by simp⟩ else ⟨[' '], by simp⟩

/-- The run makes nothing of the blanks, with which the texts are others. -/
theorem sameButLayout_pad_asTyped
    : ({} : Config).compile = .ok Config.defaultScheme
      ∧ (∀ file ∈ asTyped.files, FeedsAfterReturns file.text.toList)
      ∧ asTyped.pad straggling ≠ asTyped
      ∧ (ofSources Config.defaultScheme Rule.standard asTyped none).SameButLayout
          (ofSources Config.defaultScheme Rule.standard (asTyped.pad straggling) none) := by
  have feeds : ∀ file ∈ asTyped.files, FeedsAfterReturns file.text.toList := by
    decide +kernel
  refine ⟨Config.compile_default, feeds, by decide +kernel, ?_⟩
  exact sameButLayout_pad Config.compile_default feeds straggling none

end Run

end Traceability
