import Traceability.Claim.Registry
import Traceability.Proofs.Config.Compile
import Traceability.Proofs.Repair.Rewrite
import Traceability.Proofs.Text.WithReturns

/-! Files that differ in their line ends only.
A reader sees the same lines in both. A change finds its marker in the same piece, as it looks
at contents only, and puts the ending of that piece back behind the new content. What carries
this from change to change is that no content has a line feed.
-/

namespace Traceability

open Text

/-- A text without carriage returns is read as the text with returns, by any registry. -/
theorem Registry.parseFile_withReturns (registry : Registry) (scheme : Scheme) (path : String)
    {text : String} (plain : '\r' ∉ text.toList)
    : registry.parseFile scheme path (withReturns text) = registry.parseFile scheme path text := by
  simp only [parseFile, Line.ofText_withReturns plain]

namespace Rewrite

/-- No content of a piece has a line feed. -/
def PlainContents (pieces : List (List Char)) : Prop :=
  ∀ piece ∈ pieces, '\n' ∉ contentOf piece

-----------------------------------------------------------------------------------------
-- Finding the marker
-----------------------------------------------------------------------------------------

variable {ps : List (List Char)}

theorem map_contentOf_getElem?_putReturns (plain : PlainContents ps) (i : Nat)
    : ((ps.map putReturns)[i]?).map contentOf = (ps[i]?).map contentOf := by
  rw [List.getElem?_map]
  cases here : ps[i]? with
  | none => rfl
  | some piece =>
      exact congrArg some (contentOf_putReturns (plain piece (List.mem_of_getElem? here)))

theorem matchesFrom_putReturns (plain : PlainContents ps) (anchor : List Char) (position : Nat)
    : matchesFrom anchor position (ps.map putReturns) = matchesFrom anchor position ps := by
  induction ps generalizing position with
  | nil => rfl
  | cons piece rest ih =>
      have own := contentOf_putReturns (plain piece List.mem_cons_self)
      have later (position : Nat) :=
        ih (fun other member => plain other (List.mem_cons_of_mem _ member)) position
      simp only [List.map_cons, matchesFrom, own, later]

theorem locate?_putReturns (plain : PlainContents ps) (line : Nat) (anchor : List Char)
    : locate? (ps.map putReturns) line anchor = locate? ps line anchor := by
  simp only [locate?, map_contentOf_getElem?_putReturns plain, matchesFrom_putReturns plain]

-----------------------------------------------------------------------------------------
-- One change
-----------------------------------------------------------------------------------------

variable {update : HashUpdate}

/-- The new content of a piece has no line feed. -/
theorem feed_not_mem_of_replaceHash? {content computed replaced : List Char}
    {stored : Option (List Char)} (read : replaceHash? content stored computed = some replaced)
    (plain : '\n' ∉ content) (plainHash : '\n' ∉ computed)
    : '\n' ∉ replaced := by
  intro member
  rcases mem_of_replaceHash? read member with inContent | inHash | inSuffix
  · exact plain inContent
  · exact plainHash inHash
  · exact absurd inSuffix (by decide)

/-- A change puts the ending of one piece behind a new content without line feeds. -/
theorem exists_of_change? {changed : List (List Char)} (plain : PlainContents ps)
    (plainHash : '\n' ∉ update.computed.toList) (made : change? ps update = some changed)
    : ∃ position piece replaced,
        '\n' ∉ replaced ∧ changed = ps.set position (replaced ++ endingOf piece) := by
  obtain ⟨position, piece, replaced, -, here, read, rfl⟩ := parts_of_change? made
  have own := plain piece (List.mem_of_getElem? here)
  exact ⟨position, piece, replaced, feed_not_mem_of_replaceHash? read own plainHash, rfl⟩

/-- A change leaves the contents of all pieces free of line feeds. -/
theorem PlainContents.change? {changed : List (List Char)} (plain : PlainContents ps)
    (plainHash : '\n' ∉ update.computed.toList) (made : change? ps update = some changed)
    : PlainContents changed := by
  obtain ⟨position, old, replaced, plainNew, rfl⟩ := exists_of_change? plain plainHash made
  intro piece member
  rcases List.mem_or_eq_of_mem_set member with before | rfl
  · exact plain piece before
  · rw [contentOf_append_ends replaced isLineEnd_of_mem_endingOf]
    exact fun feed => plainNew ((contentOf_isPrefix replaced).mem feed)

/-- A change of the pieces with returns is the change of the pieces, with returns. -/
theorem change?_putReturns (plain : PlainContents ps)
    (plainHash : '\n' ∉ update.computed.toList)
    : change? (ps.map putReturns) update = (change? ps update).map (List.map putReturns) := by
  simp only [change?, locate?_putReturns plain, List.getElem?_map]
  cases locate? ps update.line update.anchor.toList with
  | none => rfl
  | some position =>
      simp only [Option.bind_eq_bind, Option.bind_some]
      cases here : ps[position]? with
      | none => rfl
      | some piece =>
          have own := plain piece (List.mem_of_getElem? here)
          simp only [Option.map_some, Option.bind_some, contentOf_putReturns own,
            endingOf_putReturns own]
          cases read : replaceHash? (contentOf piece) (update.stored.map String.toList)
              update.computed.toList with
          | none => rfl
          | some replaced =>
              have plainNew := feed_not_mem_of_replaceHash? read own plainHash
              have piecewise : putReturns (replaced ++ endingOf piece)
                  = replaced ++ putReturns (endingOf piece) := by
                rw [putReturns_append, putReturns_of_plain plainNew]
              refine congrArg some ?_
              rw [List.map_set, piecewise]

-----------------------------------------------------------------------------------------
-- All changes
-----------------------------------------------------------------------------------------

/-- All changes of the pieces with returns are the changes of the pieces, with returns. Witness:
induction along the changes; each leaves the contents free of line feeds for the next. -/
theorem applyAll_putReturns (path : String) (plain : PlainContents ps)
    {updates : List HashUpdate}
    (plainHashes : ∀ update ∈ updates, '\n' ∉ update.computed.toList)
    : applyAll path (ps.map putReturns) updates
      = (applyAll path ps updates).map (List.map putReturns) := by
  induction updates generalizing ps with
  | nil => rfl
  | cons update rest ih =>
      have plainHash := plainHashes update List.mem_cons_self
      simp only [applyAll, change?_putReturns plain plainHash]
      cases made : change? ps update with
      | none => rfl
      | some changed =>
          exact ih (plain.change? plainHash made)
            (fun other member => plainHashes other (List.mem_cons_of_mem _ member))

/-- Rewriting a text with returns fails as rewriting the text does, and otherwise gives the
rewritten text with returns. -/
theorem rewrite_withReturns (path text : String) {updates : List HashUpdate}
    (plainHashes : ∀ update ∈ updates, '\n' ∉ update.computed.toList)
    : rewrite path (withReturns text) updates = (rewrite path text updates).map withReturns := by
  have applied := applyAll_putReturns path
    (feed_not_mem_contentOf_of_mem_pieces (s := text.toList)) plainHashes
  simp only [rewrite, toList_withReturns, pieces_putReturns, applied]
  cases applyAll path (pieces text.toList) updates with
  | error error => rfl
  | ok rewritten =>
      simp only [Except.map, withReturns, String.toList_ofList, putReturns_flatten]

end Rewrite

-----------------------------------------------------------------------------------------
-- Files
-----------------------------------------------------------------------------------------

/-- Files that differ only in having carriage returns before their line feeds are read alike and
rewritten alike. -/
theorem lineEnds_alike (scheme : Scheme) (path : String) {text : String}
    (plain : '\r' ∉ text.toList)
    : (∀ registry : Registry,
        registry.parseFile scheme path (withReturns text) = registry.parseFile scheme path text)
      ∧ ∀ updates : List HashUpdate,
          (∀ update ∈ updates, '\n' ∉ update.computed.toList) →
          Rewrite.rewrite path (withReturns text) updates
            = (Rewrite.rewrite path text updates).map withReturns :=
  ⟨fun registry => registry.parseFile_withReturns scheme path plain,
    fun _ plainHashes => Rewrite.rewrite_withReturns path text plainHashes⟩

/-- Two requirements, of which the last line is a closing marker without a line end. -/
def openEndedText : String :=
  "# REQ-p00001: A\n*End* *A* | **Hash**: 0af1\n# REQ-p00002: B\n*End* *B*"

/-- Two changes: one at its recorded line, and one whose marker is no longer there. -/
def openEndedUpdates : List HashUpdate :=
  [⟨"spec.md", "REQ-p00001", 2, "*End* *A* | **Hash**: 0af1", some "0af1", "22c8"⟩,
    ⟨"spec.md", "REQ-p00002", 9, "*End* *B*", none, "91be"⟩]

theorem lineEnds_alike_openEndedText
    : '\r' ∉ openEndedText.toList
      ∧ (∀ update ∈ openEndedUpdates, '\n' ∉ update.computed.toList)
      ∧ Registry.standard.parseFile Config.defaultScheme "spec.md" (withReturns openEndedText)
        = Registry.standard.parseFile Config.defaultScheme "spec.md" openEndedText
      ∧ Rewrite.rewrite "spec.md" (withReturns openEndedText) openEndedUpdates
        = .ok
          ("# REQ-p00001: A\r\n*End* *A* | **Hash**: 22c8\r\n"
            ++ "# REQ-p00002: B\r\n*End* *B* | **Hash**: 91be") := by
  have plain : '\r' ∉ openEndedText.toList := by decide +kernel
  have plainHashes : ∀ update ∈ openEndedUpdates, '\n' ∉ update.computed.toList := by
    decide +kernel
  obtain ⟨read, rewritten⟩ := lineEnds_alike Config.defaultScheme "spec.md" plain
  refine ⟨plain, plainHashes, read Registry.standard, ?_⟩
  rw [rewritten openEndedUpdates plainHashes]
  decide +kernel

end Traceability
