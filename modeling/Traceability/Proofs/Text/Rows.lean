import Traceability.Proofs.Text.Search
import Traceability.Repair.Rewrite

/-! Texts whose carriage returns all belong to line ends.
Such a text is a sequence of rows, each a line and its end. A reader that drops line ends and a
writer that keeps them then see the same lines under the same numbers.
-/

namespace Traceability.Text

open Rewrite

/-- Every carriage return stands directly before a line feed. -/
def FeedsAfterReturns (s : List Char) : Prop :=
  ∀ before after, s = before ++ '\r' :: after → ∃ rest, after = '\n' :: rest

theorem feedsAfterReturns_cons_iff {c : Char} {s : List Char}
    : FeedsAfterReturns (c :: s)
      ↔ (c = '\r' → s.head? = some '\n') ∧ FeedsAfterReturns s := by
  constructor
  · intro feeds
    refine ⟨fun isReturn => ?_, fun before after split => ?_⟩
    · obtain ⟨rest, rfl⟩ := feeds [] s (by rw [isReturn, List.nil_append])
      rfl
    · exact feeds (c :: before) after (by rw [split, List.cons_append])
  · intro ⟨first, later⟩ before after split
    cases before with
    | nil =>
        obtain ⟨rfl, rfl⟩ := List.cons.inj split
        cases s with
        | nil => exact absurd (first rfl) (by simp)
        | cons d rest => exact ⟨rest, by rw [Option.some.inj (first rfl)]⟩
    | cons d before => exact later before after (List.cons.inj split).2

instance FeedsAfterReturns.decidable : (s : List Char) → Decidable (FeedsAfterReturns s)
  | [] => isTrue (fun _ _ split => absurd split (by simp))
  | _ :: s =>
      have := decidable s
      decidable_of_iff _ feedsAfterReturns_cons_iff.symm

/-- There is no line end in a text. -/
def Inline (s : List Char) : Prop :=
  ∀ c ∈ s, isLineEnd c = false

/-- Pieces each of which is a line and its end, which only the last one may lack. -/
inductive Rows : List (List Char) → Prop
  | nil : Rows []
  | last {content} (inline : Inline content) (nonempty : content ≠ []) : Rows [content]
  | line {content ending rest} (inline : Inline content)
    (ends : ending = ['\n'] ∨ ending = ['\r', '\n']) (further : Rows rest)
    : Rows ((content ++ ending) :: rest)

-----------------------------------------------------------------------------------------
-- Content and ending of a row
-----------------------------------------------------------------------------------------

theorem Inline.feed_not_mem {s : List Char} (h : Inline s) : '\n' ∉ s :=
  fun member => Bool.noConfusion (h _ member)

theorem contentOf_append_ends (s : List Char) {ending : List Char}
    (ends : ∀ c ∈ ending, isLineEnd c = true)
    : contentOf (s ++ ending) = contentOf s := by
  have ends : ∀ c ∈ ending.reverse, isLineEnd c = true :=
    fun c member => ends c (List.mem_reverse.mp member)
  simp only [contentOf, dropEndWhile, List.reverse_append, List.dropWhile_append_of_pos ends]

/-- A line without an end is all content. -/
theorem contentOf_of_inline {content : List Char} (inline : Inline content)
    : contentOf content = content := by
  have kept : content.reverse.dropWhile isLineEnd = content.reverse := by
    cases reversed : content.reverse with
    | nil => rfl
    | cons c rest =>
        have member : c ∈ content := by
          rw [← List.mem_reverse, reversed]
          exact List.mem_cons_self
        simp [inline c member]
  rw [contentOf, dropEndWhile, kept, List.reverse_reverse]

theorem contentOf_append {content ending : List Char} (inline : Inline content)
    (ends : ∀ c ∈ ending, isLineEnd c = true)
    : contentOf (content ++ ending) = content :=
  (contentOf_append_ends content ends).trans (contentOf_of_inline inline)

theorem endingOf_append {content ending : List Char} (inline : Inline content)
    (ends : ∀ c ∈ ending, isLineEnd c = true)
    : endingOf (content ++ ending) = ending := by
  rw [endingOf, contentOf_append inline ends, List.drop_left]

theorem endingOf_of_inline {content : List Char} (inline : Inline content)
    : endingOf content = [] := by
  rw [endingOf, contentOf_of_inline inline, List.drop_length]

theorem contentOf_isPrefix (piece : List Char)
    : contentOf piece <+: piece := by
  rw [contentOf, dropEndWhile, ← List.reverse_suffix, List.reverse_reverse]
  exact List.dropWhile_suffix isLineEnd

theorem contentOf_append_endingOf (piece : List Char)
    : contentOf piece ++ endingOf piece = piece :=
  List.prefix_iff_eq_append.mp (contentOf_isPrefix piece)

theorem isLineEnd_of_ending {ending : List Char}
    (ends : ending = ['\n'] ∨ ending = ['\r', '\n'])
    : ∀ c ∈ ending, isLineEnd c = true := by
  rcases ends with rfl | rfl <;> exact forall_mem_of_all (by decide)

theorem dropTerminator_append {content ending : List Char} (inline : Inline content)
    (ends : ending = ['\n'] ∨ ending = ['\r', '\n'])
    : dropTerminator (content ++ ending) = content := by
  rcases ends with rfl | rfl
  · have reversed : (content ++ ['\n']).reverse = '\n' :: content.reverse := by simp
    rw [dropTerminator, reversed]
    split
    · next rest same =>
        have member : '\r' ∈ content := by
          rw [← List.mem_reverse, (List.cons.inj same).2]
          exact List.mem_cons_self
        exact absurd (inline _ member) (by decide)
    · next rest _ same => rw [← (List.cons.inj same).2, List.reverse_reverse]
    · next other => exact absurd rfl (other _)
  · simp [dropTerminator]

/-- A text without line feeds is a line. -/
theorem dropTerminator_of_plain {content : List Char} (plain : '\n' ∉ content)
    : dropTerminator content = content := by
  have other (rest : List Char) : content.reverse ≠ '\n' :: rest := by
    intro same
    refine plain ?_
    rw [← List.mem_reverse, same]
    exact List.mem_cons_self
  rw [dropTerminator]
  split
  · next rest same => exact absurd same (other _)
  · next rest _ same => exact absurd same (other _)
  · rfl

theorem dropTerminator_of_inline {content : List Char} (inline : Inline content)
    : dropTerminator content = content :=
  dropTerminator_of_plain inline.feed_not_mem

/-- The line of a row is its content. -/
theorem Rows.dropTerminator_eq {ps : List (List Char)} (rows : Rows ps)
    : ∀ piece ∈ ps, dropTerminator piece = contentOf piece := by
  induction rows with
  | nil => simp
  | last inline nonempty =>
      intro piece member
      rw [List.mem_singleton.mp member, dropTerminator_of_inline inline,
        contentOf_of_inline inline]
  | line inline ends further ih =>
      intro piece member
      rcases List.mem_cons.mp member with rfl | later
      · rw [dropTerminator_append inline ends,
          contentOf_append inline (isLineEnd_of_ending ends)]
      · exact ih piece later

-----------------------------------------------------------------------------------------
-- Texts and rows
-----------------------------------------------------------------------------------------

theorem pieces_append_feed {content : List Char} (plain : '\n' ∉ content) (rest : List Char)
    : pieces (content ++ '\n' :: rest) = (content ++ ['\n']) :: pieces rest := by
  induction content with
  | nil => rfl
  | cons c content ih =>
      have distinct : c ≠ '\n' := fun same => plain (same ▸ List.mem_cons_self)
      have later := ih (fun member => plain (List.mem_cons_of_mem c member))
      have step : pieces (c :: (content ++ '\n' :: rest))
          = pushPiece c (pieces (content ++ '\n' :: rest)) := rfl
      rw [List.cons_append, step, later, pushPiece, if_neg distinct]
      rfl

theorem pieces_of_plain {content : List Char} (plain : '\n' ∉ content) (nonempty : content ≠ [])
    : pieces content = [content] := by
  induction content with
  | nil => exact absurd rfl nonempty
  | cons c content ih =>
      have distinct : c ≠ '\n' := fun same => plain (same ▸ List.mem_cons_self)
      have step : pieces (c :: content) = pushPiece c (pieces content) := rfl
      rw [step]
      unfold pushPiece
      rw [if_neg distinct]
      cases content with
      | nil => rfl
      | cons d rest =>
          rw [ih (fun member => plain (List.mem_cons_of_mem c member)) (by simp)]

/-- Rows are cut again where they were joined. -/
theorem Rows.pieces_flatten {ps : List (List Char)} (rows : Rows ps)
    : pieces ps.flatten = ps := by
  induction rows with
  | nil => rfl
  | last inline nonempty =>
      simpa using pieces_of_plain inline.feed_not_mem nonempty
  | @line content ending rest inline ends further ih =>
      rcases ends with rfl | rfl
      · rw [List.flatten_cons, List.append_assoc, List.singleton_append,
          pieces_append_feed inline.feed_not_mem, ih]
      · have plain : '\n' ∉ content ++ ['\r'] := by
          simp [inline.feed_not_mem]
        have joined : ((content ++ ['\r', '\n']) :: rest).flatten
            = (content ++ ['\r']) ++ '\n' :: rest.flatten := by simp
        rw [joined, pieces_append_feed plain, ih]
        simp

theorem Rows.tail {piece : List Char} {rest : List (List Char)} (rows : Rows (piece :: rest))
    : Rows rest := by
  cases rows with
  | last => exact .nil
  | line _ _ further => exact further

/-- A text whose carriage returns all belong to line ends has rows for pieces. Witness:
induction from the end of the text; a carriage return extends the ending of the row behind it,
and any other character its content. -/
theorem rows_pieces {s : List Char} (feeds : FeedsAfterReturns s) : Rows (pieces s) := by
  induction s with
  | nil => exact .nil
  | cons c s ih =>
      have rows := ih (feedsAfterReturns_cons_iff.mp feeds).2
      have step : pieces (c :: s) = pushPiece c (pieces s) := rfl
      have empty : Inline [] := by simp [Inline]
      rw [step]
      unfold pushPiece
      by_cases feed : c = '\n'
      · rw [if_pos feed, feed]
        exact .line empty (Or.inl rfl) rows
      · rw [if_neg feed]
        by_cases isReturn : c = '\r'
        · obtain ⟨rest, rfl⟩ := feeds [] s (by rw [isReturn]; rfl)
          have behind : pieces ('\n' :: rest) = ['\n'] :: pieces rest := rfl
          rw [behind] at rows ⊢
          rw [isReturn]
          exact .line empty (Or.inr rfl) rows.tail
        · have plain : isLineEnd c = false := by simp [isLineEnd, feed, isReturn]
          have extended {content : List Char} (inline : Inline content)
              : Inline (c :: content) := by
            intro d member
            rcases List.mem_cons.mp member with rfl | member
            · exact plain
            · exact inline d member
          generalize pieces s = ps at rows
          cases rows with
          | nil => exact .last (extended empty) (by simp)
          | last inline nonempty => exact .last (extended inline) (by simp)
          | line inline ends further => exact .line (extended inline) ends further

theorem Rows.inline_contentOf {ps : List (List Char)} (rows : Rows ps)
    : ∀ piece ∈ ps, Inline (contentOf piece) := by
  induction rows with
  | nil => simp
  | last inline nonempty =>
      intro piece member
      rw [List.mem_singleton.mp member, contentOf_of_inline inline]
      exact inline
  | line inline ends further ih =>
      intro piece member
      rcases List.mem_cons.mp member with rfl | later
      · rw [contentOf_append inline (isLineEnd_of_ending ends)]
        exact inline
      · exact ih piece later

/-- There is no line end in a line of a text whose carriage returns all belong to line ends. -/
theorem inline_of_mem_lines {s : List Char} (feeds : FeedsAfterReturns s)
    : ∀ line ∈ lines s, Inline line := by
  intro line member
  obtain ⟨piece, own, rfl⟩ := List.mem_map.mp member
  rw [(rows_pieces feeds).dropTerminator_eq piece own]
  exact (rows_pieces feeds).inline_contentOf piece own

-----------------------------------------------------------------------------------------
-- Changing the content of rows
-----------------------------------------------------------------------------------------

/-- The rows after a change of their contents, which may depend on the number of the row. -/
def reviseRows (revise : Nat → List Char → List Char) (number : Nat)
    : List (List Char) → List (List Char)
  | [] => []
  | piece :: rest =>
      (revise number (contentOf piece) ++ endingOf piece)
        :: reviseRows revise (number + 1) rest

/-- A change that leaves lines lines: it brings no line ends and empties no line. -/
def KeepsLines (revise : Nat → List Char → List Char) : Prop :=
  ∀ number content, Inline content →
    Inline (revise number content) ∧ (content ≠ [] → revise number content ≠ [])

theorem Rows.revise {revise : Nat → List Char → List Char} (keeps : KeepsLines revise)
    {ps : List (List Char)} (rows : Rows ps) (number : Nat)
    : Rows (reviseRows revise number ps) := by
  induction rows generalizing number with
  | nil => exact .nil
  | @last content inline nonempty =>
      obtain ⟨kept, still⟩ := keeps number content inline
      rw [reviseRows, contentOf_of_inline inline, endingOf_of_inline inline, List.append_nil]
      exact .last kept (still nonempty)
  | @line content ending rest inline ends further ih =>
      rw [reviseRows, contentOf_append inline (isLineEnd_of_ending ends),
        endingOf_append inline (isLineEnd_of_ending ends)]
      exact .line (keeps number content inline).1 ends (ih (number + 1))

theorem getElem?_reviseRows (revise : Nat → List Char → List Char) (number : Nat)
    (ps : List (List Char)) (i : Nat)
    : (reviseRows revise number ps)[i]?
      = (ps[i]?).map (fun piece => revise (number + i) (contentOf piece) ++ endingOf piece) := by
  induction ps generalizing number i with
  | nil => rfl
  | cons piece rest ih =>
      cases i with
      | zero => rfl
      | succ i =>
          rw [reviseRows, List.getElem?_cons_succ, List.getElem?_cons_succ, ih]
          rw [Nat.add_right_comm, Nat.add_assoc]

end Traceability.Text

namespace Traceability

open Text Rewrite

-----------------------------------------------------------------------------------------
-- Numbered lines
-----------------------------------------------------------------------------------------

/-- A numbered line is the text at the position that its number says. -/
theorem Line.getElem?_of_mem_numbered {first : Nat} {texts : List (List Char)} {line : Line}
    (member : line ∈ numbered first texts)
    : first ≤ line.number ∧ texts[line.number - first]? = some line.text.toList := by
  induction texts generalizing first with
  | nil => exact absurd member List.not_mem_nil
  | cons text rest ih =>
      rcases List.mem_cons.mp member with rfl | later
      · simp
      · obtain ⟨above, here⟩ := ih later
        have next : line.number - first = line.number - (first + 1) + 1 := by omega
        rw [next, List.getElem?_cons_succ]
        exact ⟨by omega, here⟩

/-- A line after a change of its text. -/
def Line.revise (line : Line) (f : Nat → List Char → List Char) : Line :=
  { line with text := String.ofList (f line.number line.text.toList) }

theorem Text.Rows.numbered_revise {f : Nat → List Char → List Char} (keeps : KeepsLines f)
    {ps : List (List Char)} (rows : Rows ps) (number : Nat)
    : Line.numbered number ((reviseRows f number ps).map contentOf)
      = (Line.numbered number (ps.map contentOf)).map (Line.revise · f) := by
  induction rows generalizing number with
  | nil => rfl
  | @last content inline nonempty =>
      have kept := (keeps number content inline).1
      simp [reviseRows, Line.numbered, Line.revise, contentOf_of_inline inline,
        endingOf_of_inline inline, contentOf_of_inline kept]
  | @line content ending rest inline ends further ih =>
      have isEnd := isLineEnd_of_ending ends
      have kept := (keeps number content inline).1
      simp [reviseRows, Line.numbered, Line.revise, contentOf_append inline isEnd,
        endingOf_append inline isEnd, contentOf_append kept isEnd, ih]

/-- The lines of a text whose carriage returns all belong to line ends are the contents of its
pieces. -/
theorem Line.ofText_eq {text : String} (feeds : FeedsAfterReturns text.toList)
    : ofText text = numbered 1 ((pieces text.toList).map contentOf) := by
  rw [ofText, Text.lines]
  congr 1
  exact List.map_congr_left (rows_pieces feeds).dropTerminator_eq

/-- The lines of a text with changed rows are the lines of the text, changed one by one. -/
theorem Line.ofText_reviseRows {f : Nat → List Char → List Char} (keeps : KeepsLines f)
    {text : String} (feeds : FeedsAfterReturns text.toList)
    : ofText (String.ofList (reviseRows f 1 (pieces text.toList)).flatten)
      = (ofText text).map (revise · f) := by
  have rows := rows_pieces feeds
  have revised := rows.revise keeps 1
  rw [ofText, Text.lines, String.toList_ofList, revised.pieces_flatten,
    List.map_congr_left revised.dropTerminator_eq, rows.numbered_revise keeps, ofText_eq feeds]

end Traceability
