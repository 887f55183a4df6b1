import Mathlib.Data.List.Chain
import Traceability.Proofs.Claim.Readings
import Traceability.Proofs.Claim.Standard
import Traceability.Proofs.Config.Compile
import Traceability.Proofs.Digest.Canonical
import Traceability.Proofs.Text.Returns

/-! What the canonical form of a body says about its assertions.
The canonical form keeps the rows of a body, apart from blanks at their ends, blank rows around
them and rules after them. So the assertions can be read off it, up to rules on indented rows at
the end of the body, which continue the text of the last assertion.
-/

namespace Traceability

open Text

-----------------------------------------------------------------------------------------
-- Rows that carriage returns end
-----------------------------------------------------------------------------------------

/-- Behind a carriage return comes a line feed or nothing. -/
def Text.ReturnsEnd (s : List Char) : Prop :=
  s.IsChain (fun c next => c = '\r' → next = '\n')

instance (s : List Char) : Decidable (ReturnsEnd s) :=
  inferInstanceAs (Decidable (s.IsChain _))

namespace Canonical

open Rewrite

/-- A row with no line end but perhaps one carriage return behind it. -/
def Ended (row : List Char) : Prop :=
  ∃ content, Inline content ∧ (row = content ∨ row = content ++ ['\r'])

theorem ended_of_returnsEnd {row : List Char} (plain : '\n' ∉ row) (returns : ReturnsEnd row)
    : Ended row := by
  induction row with
  | nil => exact ⟨[], fun _ member => absurd member List.not_mem_nil, Or.inl rfl⟩
  | cons c rest ih =>
      rw [List.mem_cons, not_or] at plain
      by_cases isReturn : c = '\r'
      · cases rest with
        | nil =>
            refine ⟨[], fun _ member => absurd member List.not_mem_nil, Or.inr ?_⟩
            rw [isReturn, List.nil_append]
        | cons next more =>
            have feed := (List.isChain_cons_cons.mp returns).1 isReturn
            exact absurd (feed ▸ List.mem_cons_self) plain.2
      · obtain ⟨content, inline, shape⟩ := ih plain.2 (List.IsChain.of_cons returns)
        refine ⟨c :: content, ?_, shape.imp (congrArg (c :: ·)) (congrArg (c :: ·))⟩
        intro d member
        rcases List.mem_cons.mp member with rfl | later
        · simp [isLineEnd, isReturn, Ne.symm plain.1]
        · exact inline d later

theorem isLineEnd_return : ∀ c ∈ ['\r'], isLineEnd c = true :=
  List.forall_mem_singleton.mpr rfl

theorem Ended.inline_contentOf {row : List Char} (ended : Ended row) : Inline (contentOf row) := by
  obtain ⟨content, inline, rfl | rfl⟩ := ended
  · rw [contentOf_of_inline inline]
    exact inline
  · rw [contentOf_append inline isLineEnd_return]
    exact inline

theorem Ended.trimEnd_contentOf {row : List Char} (ended : Ended row)
    : trimEnd (contentOf row) = trimEnd row := by
  obtain ⟨content, inline, rfl | rfl⟩ := ended
  · rw [contentOf_of_inline inline]
  · rw [contentOf_append inline isLineEnd_return, trimEnd_append_blanks (by decide)]

/-- The end of a row is a line feed whether a carriage return stands before it or not. -/
theorem Ended.unifyLineEnds_append_feed {row : List Char} (ended : Ended row) (rest : List Char)
    : unifyLineEnds (row ++ '\n' :: rest) = contentOf row ++ '\n' :: unifyLineEnds rest := by
  obtain ⟨content, inline, rfl | rfl⟩ := ended
  · rw [contentOf_of_inline inline, unifyLineEnds_append inline]
    rfl
  · rw [contentOf_append inline isLineEnd_return, List.append_assoc, unifyLineEnds_append inline]
    rfl

/-- All lines of a body, without the blanks at their ends. -/
def rows (body : List Char) : List (List Char) :=
  (Text.lines (unifyLineEnds body)).map trimEnd

/-- There is nothing on any of these rows. -/
def Empties (rows : List (List Char)) : Prop :=
  ∀ row ∈ rows, row = []

/-- A carriage return behind the last row opens an empty one. -/
theorem unifyLineEnds_join {texts : List (List Char)} (ended : ∀ row ∈ texts, Ended row)
    : ∃ pad, Empties pad
        ∧ unifyLineEnds (join ['\n'] texts) = join ['\n'] (texts.map contentOf ++ pad) := by
  induction texts with
  | nil => exact ⟨[], fun _ member => absurd member List.not_mem_nil, rfl⟩
  | cons row rest ih =>
      have own := ended row List.mem_cons_self
      cases rest with
      | nil =>
          obtain ⟨content, inline, rfl | rfl⟩ := own
          · refine ⟨[], fun _ member => absurd member List.not_mem_nil, ?_⟩
            have whole := unifyLineEnds_append inline []
            rw [List.append_nil] at whole
            simpa [join, contentOf_of_inline inline, unifyLineEnds] using whole
          · refine ⟨[[]], fun _ member => List.mem_singleton.mp member, ?_⟩
            rw [List.map_singleton, contentOf_append inline isLineEnd_return]
            simp [join, unifyLineEnds_append inline, unifyLineEnds]
      | cons next more =>
          obtain ⟨pad, empties, later⟩ :=
            ih (fun other member => ended other (List.mem_cons_of_mem row member))
          refine ⟨pad, empties, ?_⟩
          rw [join_cons _ _ (List.cons_ne_nil _ _), List.append_assoc, List.singleton_append,
            own.unifyLineEnds_append_feed, later]
          have further : (next :: more).map contentOf ++ pad ≠ [] := List.cons_ne_nil _ _
          rw [List.map_cons (l := next :: more), List.cons_append, join_cons _ _ further,
            List.append_assoc, List.singleton_append]

/-- The rows of a body are the texts of which it was joined, apart from empty ones at the end. -/
theorem rows_join {texts : List (List Char)} (ended : ∀ row ∈ texts, Ended row)
    : ∃ pad more, Empties pad ∧ Empties more
        ∧ rows (join ['\n'] texts) ++ pad = texts.map trimEnd ++ more := by
  obtain ⟨pad, empties, unified⟩ := unifyLineEnds_join ended
  have inline : ∀ row ∈ texts.map contentOf ++ pad, Inline row := by
    intro row member
    rcases List.mem_append.mp member with own | empty
    · obtain ⟨text, listed, rfl⟩ := List.mem_map.mp own
      exact (ended text listed).inline_contentOf
    · rw [empties row empty]
      exact fun _ inside => absurd inside List.not_mem_nil
  have trimmed : (texts.map contentOf ++ pad).map trimEnd = texts.map trimEnd ++ pad := by
    rw [List.map_append, List.map_map]
    congr 1
    · exact List.map_congr_left (fun text listed => (ended text listed).trimEnd_contentOf)
    · refine (List.map_congr_left (fun row empty => ?_)).trans (List.map_id pad)
      rw [empties row empty]
      rfl
  have none : Empties [] := fun _ member => absurd member List.not_mem_nil
  rw [rows, unified]
  rcases lines_join inline with whole | ⟨init, ends, whole⟩
  · exact ⟨[], pad, none, empties, by rw [whole, trimmed, List.append_nil]⟩
  · refine ⟨[[]], pad, fun _ => List.mem_singleton.mp, empties, ?_⟩
    rw [whole, ← trimmed, ends, List.map_append]
    rfl

theorem lines_eq_of_form_eq {body other : List Char} (same : form body = form other)
    : lines body = lines other := by
  rw [← lines_form body, same, lines_form other]

end Canonical

-----------------------------------------------------------------------------------------
-- Assertions of the canonical form
-----------------------------------------------------------------------------------------

open Claim.Requirement

namespace Canonical

/-- An assertion starts with a capital letter, and a rule consists of other signs. -/
theorem assertion?_of_isDecoration {row : List Char} (decoration : isDecoration row = true)
    : Item.assertion? (String.ofList row) = none := by
  rw [isDecoration, Bool.or_eq_true, List.isEmpty_iff] at decoration
  rcases decoration with rfl | rule
  · rfl
  · simp only [isRule, Bool.and_eq_true, List.all_eq_true] at rule
    rw [Item.assertion?, String.toList_ofList]
    cases start : trimStart row with
    | nil => rfl
    | cons letter rest =>
        have solid : isBlank letter = false := by
          have stopped := List.head?_dropWhile_not isBlank row
          rw [show row.dropWhile isBlank = letter :: rest from start] at stopped
          exact stopped
        obtain ⟨blanks, blank, split⟩ := exists_blanks_trimEnd (letter :: rest)
        have inside : letter ∈ trimEnd (letter :: rest) := by
          cases signs : trimEnd (letter :: rest) with
          | nil =>
              rw [signs, List.nil_append] at split
              have isBlank := blank letter (split ▸ List.mem_cons_self)
              exact absurd (solid.symm.trans isBlank) Bool.false_ne_true
          | cons sign more =>
              rw [signs, List.cons_append] at split
              exact (List.cons.inj split).1 ▸ List.mem_cons_self
        have sign : isRuleSign letter = true := by
          refine rule.2 letter ?_
          rw [show trim row = trimEnd (trimStart row) from rfl, start]
          exact inside
        have lower : letter.isUpper = false := by
          simp only [isRuleSign, Bool.or_eq_true, beq_iff_eq] at sign
          rcases sign with ((rfl | rfl) | rfl) | rfl <;> decide
        simp only [lower, Bool.false_eq_true, if_false]

theorem plain_of_empties {pad : List (List Char)} (empties : Empties pad) : Plain pad := by
  intro row member
  rw [empties row member]
  rfl

/-- Empty rows under a body continue nothing. -/
theorem readings_append_empties {pad : List (List Char)} (empties : Empties pad)
    (rows : List (List Char))
    : readings (rows ++ pad) = readings rows := by
  obtain ⟨parts, among, same⟩ := exists_readings_append (plain_of_empties empties) rows
  have none : pad.filter continuesRow = [] := by
    refine List.filter_eq_nil_iff.mpr (fun row member => ?_)
    rw [empties row member]
    exact Bool.false_ne_true
  rw [none, List.map_nil, List.prefix_nil] at among
  rw [same, among, extendLast_nil]

/-- The rules on indented rows at the end of a body. -/
def indentedRules (body : List Char) : List (List Char) :=
  (((rows body).rtakeWhile isDecoration).filter continuesRow).map trim

/-- The assertions are those of the canonical form, the last one perhaps with rules behind it. -/
theorem exists_readings_rows (body : List Char)
    : ∃ parts, parts <+: indentedRules body
        ∧ readings (rows body) = extendLast parts (readings (lines body)) := by
  have decorated : Plain ((rows body).rtakeWhile isDecoration) :=
    fun row member => assertion?_of_isDecoration (List.mem_rtakeWhile_imp member)
  have above : Plain (((rows body).rdropWhile isDecoration).takeWhile List.isEmpty) := by
    refine plain_of_empties (fun row member => ?_)
    exact List.isEmpty_iff.mp (List.mem_takeWhile_imp member)
  obtain ⟨parts, among, same⟩ :=
    exists_readings_append decorated ((rows body).rdropWhile isDecoration)
  refine ⟨parts, among, ?_⟩
  rw [List.rdropWhile_append_rtakeWhile] at same
  have kept : lines body = ((rows body).rdropWhile isDecoration).dropWhile List.isEmpty := rfl
  rw [same, kept]
  conv_lhs => rw [← List.takeWhile_append_dropWhile (p := List.isEmpty)
    (l := (rows body).rdropWhile isDecoration), readings_append_of_plain above]

end Canonical

-----------------------------------------------------------------------------------------
-- Requirements with one canonical form
-----------------------------------------------------------------------------------------

/-- The reader of requirements claims a block that holds this requirement, among lines of a
text. -/
def Requirement.Claimed (requirement : Requirement) : Prop :=
  ∃ (context : ClaimContext) (text : String) (free : List Line) (block : Block),
    free.Sublist (Line.ofText text)
    ∧ block ∈ Claim.requirement.claim context free
    ∧ block.content = .requirement requirement

namespace Requirement

theorem Claimed.exists_lines {requirement : Requirement} (claimed : requirement.Claimed)
    : ∃ lines : List Line,
        (∀ line ∈ lines, '\n' ∉ line.text.toList)
        ∧ requirement.assertions = Claim.Requirement.assertions lines
        ∧ requirement.body = Line.joinTexts lines := by
  obtain ⟨context, text, free, block, within, member, content⟩ := claimed
  obtain ⟨line, rest, count, _, behind, opened, rfl⟩ := Block.mem_sweep member
  obtain ⟨heading, inner, last, -, closed, -, own⟩ := of_opens? opened
  obtain ⟨further, rfl, -⟩ := Line.upTo?_spec closed
  obtain rfl := Content.requirement.inj (own.symm.trans content)
  refine ⟨_, fun other listed => ?_, rfl, rfl⟩
  have inside : other ∈ inner := by
    split at listed
    · exact listed
    · exact (List.dropWhile_suffix _).mem (List.mem_of_mem_tail listed)
  have numbered : other ∈ Line.ofText text :=
    within.subset (behind.mem (List.mem_cons_of_mem line (List.mem_append_left _ inside)))
  exact feed_not_mem_of_mem_lines
    (List.mem_of_getElem? (Line.getElem?_of_mem_numbered numbered).2)

theorem letters_eq (requirement : Requirement)
    : requirement.assertions.map Assertion.letter
      = (requirement.assertions.map Assertion.reading).map Prod.fst := by
  rw [List.map_map]
  rfl

/-- The assertions of a requirement are read off the rows of its body. -/
theorem Claimed.readings_eq {requirement : Requirement} (claimed : requirement.Claimed)
    (returns : ReturnsEnd requirement.body.toList)
    : requirement.assertions.map Assertion.reading
      = readings (Canonical.rows requirement.body.toList) := by
  obtain ⟨lines, plain, assertions, body⟩ := claimed.exists_lines
  rw [body, Line.joinTexts, String.toList_ofList] at returns ⊢
  rw [assertions, reading_assertions]
  have ended : ∀ row ∈ lines.map (fun line => line.text.toList), Canonical.Ended row := by
    intro row member
    obtain ⟨line, listed, rfl⟩ := List.mem_map.mp member
    have chain : ReturnsEnd line.text.toList :=
      List.IsChain.infix returns (infix_join_of_mem _ member)
    exact Canonical.ended_of_returnsEnd (plain line listed) chain
  obtain ⟨pad, more, empties, emptiesToo, same⟩ := Canonical.rows_join ended
  rw [← readings_trimEnd, ← Canonical.readings_append_empties emptiesToo, ← same,
    Canonical.readings_append_empties empties]

/-- Where bodies have one canonical form, the assertions have the same letters in the same order.
They have the same texts too if no rule stands on an indented row at the end of a body, and
otherwise the last text may go on with such rules. -/
theorem readings_of_form_eq {requirement other : Requirement} (claimed : requirement.Claimed)
    (claimedToo : other.Claimed) (returns : ReturnsEnd requirement.body.toList)
    (returnsToo : ReturnsEnd other.body.toList)
    (same : Canonical.form requirement.body.toList = Canonical.form other.body.toList)
    : requirement.assertions.map Assertion.letter = other.assertions.map Assertion.letter
      ∧ (Canonical.indentedRules requirement.body.toList = [] →
          Canonical.indentedRules other.body.toList = [] →
          requirement.assertions.map Assertion.reading = other.assertions.map Assertion.reading)
      ∧ ∃ readings parts more,
          parts <+: Canonical.indentedRules requirement.body.toList
          ∧ more <+: Canonical.indentedRules other.body.toList
          ∧ requirement.assertions.map Assertion.reading = extendLast parts readings
          ∧ other.assertions.map Assertion.reading = extendLast more readings := by
  obtain ⟨parts, among, own⟩ := Canonical.exists_readings_rows requirement.body.toList
  obtain ⟨more, amongToo, ownToo⟩ := Canonical.exists_readings_rows other.body.toList
  rw [← claimed.readings_eq returns] at own
  rw [← claimedToo.readings_eq returnsToo, ← Canonical.lines_eq_of_form_eq same] at ownToo
  refine ⟨?_, ?_, _, parts, more, among, amongToo, own, ownToo⟩
  · rw [letters_eq, letters_eq, own, ownToo, map_fst_extendLast, map_fst_extendLast]
  · intro none noneToo
    rw [none, List.prefix_nil] at among
    rw [noneToo, List.prefix_nil] at amongToo
    rw [own, ownToo, among, amongToo]

/-- A requirement of which the body is all that matters. -/
def ofBody (body : String) (assertions : List Assertion) (endLine : Nat) : Requirement where
  id := "REQ-p00001"
  title := "Login"
  level := none
  status := none
  hasMetadata := false
  implementsTargets := []
  refinesTargets := []
  addressesTargets := []
  assertions
  body
  storedHash := none
  endMarker := "*End* *Login*"
  endLine

/-- It is claimed in the text that consists of its heading, its body and its closing marker. -/
theorem claimed_ofBody {body : String} {assertions : List Assertion} {endLine : Nat}
    (read
      : ∃ block ∈ Claim.requirement.claim ⟨"login.md", Config.defaultScheme⟩
            (Line.ofText ("# REQ-p00001: Login\n" ++ body ++ "\n*End* *Login*\n")),
          block.content = .requirement (ofBody body assertions endLine))
    : (ofBody body assertions endLine).Claimed := by
  obtain ⟨block, member, content⟩ := read
  exact ⟨_, _, _, block, .refl _, member, content⟩

/-- An assertion. -/
def asked : Requirement :=
  ofBody "A. Ask." [⟨'A', "Ask.", 2⟩] 3

/-- The same assertion under a blank row and over an indented rule, with blanks behind it. -/
def askedOverRule : Requirement :=
  ofBody "\nA. Ask. \n  ---" [⟨'A', "Ask. ---", 3⟩] 5

theorem readings_of_form_eq_asked
    : (asked.Claimed ∧ askedOverRule.Claimed)
      ∧ Canonical.form asked.body.toList = Canonical.form askedOverRule.body.toList
      ∧ asked.assertions.map Assertion.letter = askedOverRule.assertions.map Assertion.letter := by
  have claimed : asked.Claimed := claimed_ofBody (by decide +kernel)
  have claimedToo : askedOverRule.Claimed := claimed_ofBody (by decide +kernel)
  have same : Canonical.form asked.body.toList = Canonical.form askedOverRule.body.toList := by
    decide +kernel
  exact ⟨⟨claimed, claimedToo⟩, same,
    (readings_of_form_eq claimed claimedToo (by decide +kernel) (by decide +kernel) same).1⟩

/-- An indented rule right under an assertion is part of its text, and a carriage return inside a
row is none of its ends, but the canonical form knows neither. -/
theorem exists_form_eq_readings_ne
    : (∃ requirement other : Requirement,
        (requirement.Claimed ∧ other.Claimed)
        ∧ (ReturnsEnd requirement.body.toList ∧ ReturnsEnd other.body.toList)
        ∧ Canonical.form requirement.body.toList = Canonical.form other.body.toList
        ∧ requirement.assertions.map Assertion.reading ≠ other.assertions.map Assertion.reading)
      ∧ ∃ requirement other : Requirement,
          (requirement.Claimed ∧ other.Claimed)
          ∧ (Canonical.indentedRules requirement.body.toList = []
            ∧ Canonical.indentedRules other.body.toList = [])
          ∧ Canonical.form requirement.body.toList = Canonical.form other.body.toList
          ∧ requirement.assertions.map Assertion.letter
            ≠ other.assertions.map Assertion.letter := by
  have plain : asked.Claimed := claimed_ofBody (by decide +kernel)
  have ruled : (ofBody "A. Ask.\n  ---" [⟨'A', "Ask. ---", 2⟩] 4).Claimed :=
    claimed_ofBody (by decide +kernel)
  have oneRow : (ofBody "A. Ask.\rB. Tell." [⟨'A', "Ask.\rB. Tell.", 2⟩] 3).Claimed :=
    claimed_ofBody (by decide +kernel)
  have twoRows
      : (ofBody "A. Ask.\nB. Tell." [⟨'A', "Ask.", 2⟩, ⟨'B', "Tell.", 3⟩] 4).Claimed :=
    claimed_ofBody (by decide +kernel)
  exact ⟨⟨_, _, ⟨plain, ruled⟩, by decide +kernel⟩, ⟨_, _, ⟨oneRow, twoRows⟩, by decide +kernel⟩⟩

end Requirement

end Traceability
