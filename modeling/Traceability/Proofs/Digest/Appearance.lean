import Traceability.Proofs.Digest.Canonical
import Traceability.Proofs.Digest.Hash
import Traceability.Proofs.Text.Returns

/-! What the canonical form of a body leaves out.
A text is its own canonical form exactly if there is nothing left to take out of it. Texts that
differ in the kind of their line ends, in blanks at the ends of lines, in blank lines around them
and in rules behind them have one canonical form, and so one hash.
-/

namespace Traceability

open Text

namespace Canonical

-----------------------------------------------------------------------------------------
-- Lines around others
-----------------------------------------------------------------------------------------

theorem trimEnd_eq_nil_iff {s : List Char} : trimEnd s = [] ↔ Blanks s :=
  List.rdropWhile_eq_nil_iff

/-- Blanks at the end of a rule do not matter. -/
theorem isRule_trimEnd (s : List Char) : isRule (trimEnd s) = isRule s := by
  obtain ⟨blanks, blank, split⟩ := exists_blanks_trimEnd s
  have same : trim (trimEnd s) = trim s := by
    nth_rewrite 2 [split]
    exact (trim_append_blanks blank _).symm
  rw [isRule, isRule, same]

theorem isDecoration_trimEnd_iff {s : List Char}
    : isDecoration (trimEnd s) = true ↔ Blanks s ∨ isRule s = true := by
  rw [isDecoration, Bool.or_eq_true, List.isEmpty_iff, trimEnd_eq_nil_iff, isRule_trimEnd]

theorem core_append_decorations {back : List (List Char)}
    (decorations : ∀ row ∈ back, isDecoration row = true) (rows : List (List Char))
    : core (rows ++ back) = core rows := by
  have behind : ∀ row ∈ back.reverse, isDecoration row = true :=
    fun row member => decorations row (List.mem_reverse.mp member)
  rw [core, List.rdropWhile, List.reverse_append, List.dropWhile_append_of_pos behind]
  rfl

/-- Empty lines in front are left out, also where everything behind them is. -/
theorem core_append_empties {front : List (List Char)} (empties : ∀ row ∈ front, row = [])
    (rows : List (List Char))
    : core (front ++ rows) = core rows := by
  have decorations : ∀ row ∈ front.reverse, isDecoration row = true :=
    fun row member => empties row (List.mem_reverse.mp member) ▸ rfl
  have dropped : ∀ row ∈ front, row.isEmpty = true :=
    fun row member => List.isEmpty_iff.mpr (empties row member)
  rw [core, core, List.rdropWhile, List.rdropWhile, List.reverse_append, List.dropWhile_append]
  split
  · next none =>
      rw [List.isEmpty_iff.mp none, List.dropWhile_eq_nil_iff.mpr decorations]
  · rw [List.reverse_append, List.reverse_reverse, List.dropWhile_append_of_pos dropped]

-----------------------------------------------------------------------------------------
-- Texts that are canonical
-----------------------------------------------------------------------------------------

/-- There is nothing in a text that its canonical form leaves out. -/
structure IsCanonical (text : List Char) : Prop where
  noReturn : '\r' ∉ text
  noFinalFeed : '\n' ∉ text.getLast?
  trimmed : ∀ line ∈ Text.lines text, trimEnd line = line
  first : ∀ line ∈ (Text.lines text).head?, ¬ Blanks line
  last : ∀ line ∈ (Text.lines text).getLast?, ¬ Blanks line ∧ isRule line = false

theorem getLast?_join (separator : List Char) {texts : List (List Char)} {last : List Char}
    (ends : texts.getLast? = some last) (nonempty : last ≠ [])
    : (join separator texts).getLast? = last.getLast? := by
  obtain ⟨front, rfl⟩ := List.getLast?_eq_some_iff.mp ends
  by_cases alone : front = []
  · rw [alone]
    rfl
  · rw [join_append separator alone (List.cons_ne_nil _ _), join,
      List.getLast?_append_of_ne_nil _ nonempty]

/-- The lines of a text are the text again where they are joined, if no line feed ends it. -/
theorem join_lines {s : List Char} (noReturn : '\r' ∉ s) (noFinalFeed : '\n' ∉ s.getLast?)
    : join ['\n'] (Text.lines s) = s := by
  have feeds : FeedsAfterReturns s := fun before after split => absurd (split ▸ by simp) noReturn
  have rows := rows_pieces feeds
  rw [← flatten_pieces s] at noReturn noFinalFeed
  rw [Text.lines]
  conv_rhs => rw [← flatten_pieces s]
  generalize pieces s = ps at rows noReturn noFinalFeed
  induction rows with
  | nil => rfl
  | last inline nonempty =>
      rw [List.map_singleton, dropTerminator_of_inline inline, List.flatten_singleton, join]
  | @line content ending rest inline ends further ih =>
      rw [List.flatten_cons, List.mem_append, not_or, List.mem_append, not_or] at noReturn
      obtain rfl : ending = ['\n'] :=
        ends.resolve_right fun both => noReturn.1.2 (both ▸ List.mem_cons_self)
      have goesOn : rest.flatten ≠ [] := by
        intro none
        rw [List.flatten_cons, none] at noFinalFeed
        exact noFinalFeed (by simp)
      have more : rest.map dropTerminator ≠ [] := by
        intro none
        exact goesOn (by rw [List.map_eq_nil_iff.mp none]; rfl)
      rw [List.flatten_cons, List.getLast?_append_of_ne_nil _ goesOn] at noFinalFeed
      rw [List.map_cons, dropTerminator_append inline ends, join_cons _ _ more,
        ih noReturn.2 noFinalFeed, List.flatten_cons]

theorem isCanonical_form (body : List Char) : IsCanonical (form body) := by
  have normal := normal_lines body
  have cut := lines_form body
  have notBlank {line : List Char} (member : line ∈ lines body) (nonempty : line ≠ [])
      : ¬ Blanks line := by
    rw [← trimEnd_eq_nil_iff, normal.trimmed line member]
    exact nonempty
  constructor
  · exact not_mem_join (by decide) fun line member return' =>
      Bool.noConfusion (normal.inline line member '\r' return')
  · intro feed
    cases ends : (lines body).getLast? with
    | none =>
        rw [form, List.getLast?_eq_none_iff.mp ends] at feed
        cases feed
    | some line =>
        have member := List.mem_of_getLast? ends
        have kept := normal.last line ends
        have nonempty : line ≠ [] := fun none => by simp [none, isDecoration] at kept
        rw [form, getLast?_join _ ends nonempty] at feed
        exact (normal.inline line member).feed_not_mem (List.mem_of_getLast? feed)
  · rw [cut]
    exact normal.trimmed
  · rw [cut]
    exact fun line head => notBlank (List.mem_of_mem_head? head) (normal.first line head)
  · rw [cut]
    intro line ends
    have kept := normal.last line ends
    rw [isDecoration, Bool.or_eq_false_iff, List.isEmpty_eq_false_iff] at kept
    exact ⟨notBlank (List.mem_of_getLast? ends) kept.1, kept.2⟩

theorem form_of_isCanonical {text : List Char} (canonical : IsCanonical text)
    : form text = text := by
  have normal : Normal (Text.lines text) := by
    refine ⟨fun line member c own => ?_, canonical.trimmed, ?_, ?_⟩
    · have notFeed : c ≠ '\n' := fun same => feed_not_mem_of_mem_lines member (same ▸ own)
      have inText : c ∈ join ['\n'] (Text.lines text) :=
        (infix_join_of_mem _ member).subset own
      rw [join_lines canonical.noReturn canonical.noFinalFeed] at inText
      have notReturn : c ≠ '\r' := fun same => canonical.noReturn (same ▸ inText)
      simp [Rewrite.isLineEnd, notFeed, notReturn]
    · rintro line head rfl
      exact canonical.first [] head (by decide)
    · intro line ends
      obtain ⟨notBlank, noRule⟩ := canonical.last line ends
      rw [isDecoration, noRule, Bool.or_false, List.isEmpty_eq_false_iff]
      rintro rfl
      exact notBlank (by decide)
  have trimmed : (Text.lines text).map trimEnd = Text.lines text :=
    (List.map_congr_left canonical.trimmed).trans (List.map_id _)
  rw [form, lines_eq_core, unifyLineEnds_of_not_mem canonical.noReturn, trimmed,
    core_of_normal normal, join_lines canonical.noReturn canonical.noFinalFeed]

/-- The texts that are their own canonical form. -/
theorem form_eq_self_iff {text : List Char} : form text = text ↔ IsCanonical text :=
  ⟨fun own => own ▸ isCanonical_form text, form_of_isCanonical⟩

-----------------------------------------------------------------------------------------
-- Line ends
-----------------------------------------------------------------------------------------

/-- The ends that lines may have. -/
def terminators : List (List Char) := [['\n'], ['\r', '\n'], ['\r']]

/-- A terminator is one line end, unless it is a carriage return in front of a line feed. -/
theorem unifyLineEnds_terminator {terminator : List Char} (known : terminator ∈ terminators)
    {rest : List Char} (apart : terminator = ['\r'] → '\n' ∉ rest.head?)
    : unifyLineEnds (terminator ++ rest) = '\n' :: unifyLineEnds rest := by
  simp only [terminators, List.mem_cons, List.not_mem_nil, or_false] at known
  rcases known with rfl | rfl | rfl
  · rfl
  · rfl
  · cases rest with
    | nil => rfl
    | cons c more =>
        have other : c ≠ '\n' := by simpa using apart rfl
        rw [List.singleton_append, unifyLineEnds]
        intro _ same
        exact other (List.cons.inj same).1

theorem unifyLineEnds_join_terminator {terminator : List Char}
    (known : terminator ∈ terminators) {texts : List (List Char)}
    (inline : ∀ text ∈ texts, Inline text)
    : unifyLineEnds (join terminator texts) = join ['\n'] texts := by
  induction texts with
  | nil => rfl
  | cons text rest ih =>
      have own := inline text List.mem_cons_self
      have further : ∀ other ∈ rest, Inline other :=
        fun other member => inline other (List.mem_cons_of_mem text member)
      cases rest with
      | nil =>
          have whole := unifyLineEnds_append own []
          rw [List.append_nil, unifyLineEnds, List.append_nil] at whole
          exact whole
      | cons next more =>
          have apart : terminator = ['\r'] → '\n' ∉ (join terminator (next :: more)).head? := by
            rintro rfl head
            exact not_mem_join (by decide) (fun other member => (further other member).feed_not_mem)
              (List.mem_of_mem_head? head)
          rw [join, List.append_assoc, unifyLineEnds_append own,
            unifyLineEnds_terminator known apart, ih further, join, List.append_assoc]
          rfl

/-- Lines that all end with a terminator are joined with an empty one behind them. -/
theorem flatMap_append_eq_join (terminator : List Char) {texts : List (List Char)}
    (nonempty : texts ≠ [])
    : texts.flatMap (· ++ terminator) = join terminator (texts ++ [[]]) := by
  induction texts with
  | nil => exact absurd rfl nonempty
  | cons text rest ih =>
      by_cases last : rest = []
      · subst last
        simp [join]
      · rw [List.flatMap_cons, ih last, List.cons_append, join_cons _ _ (by simp)]

/-- A body in which lines stand one below the other. The last line need not be ended. -/
def Stacked (terminator : List Char) (texts : List (List Char)) (body : List Char) : Prop :=
  body = join terminator texts ∨ body = texts.flatMap (· ++ terminator)

theorem lines_of_stacked {terminator body : List Char} (known : terminator ∈ terminators)
    {texts : List (List Char)} (inline : ∀ text ∈ texts, Inline text)
    (stacked : Stacked terminator texts body)
    : lines body = core (texts.map trimEnd) := by
  have joined {texts : List (List Char)} (inline : ∀ text ∈ texts, Inline text)
      : lines (join terminator texts) = core (texts.map trimEnd) :=
    lines_of_unified inline (unifyLineEnds_join_terminator known inline)
  rcases stacked with rfl | rfl
  · exact joined inline
  · by_cases none : texts = []
    · rw [none]
      rfl
    · have ended : ∀ text ∈ texts ++ [[]], Inline text := by
        intro text member
        rcases List.mem_append.mp member with own | empty
        · exact inline text own
        · rw [List.mem_singleton.mp empty]
          exact fun _ inside => absurd inside List.not_mem_nil
      rw [flatMap_append_eq_join terminator none, joined ended, List.map_append,
        List.map_singleton]
      exact core_append_empty _

-----------------------------------------------------------------------------------------
-- Lines in another dress
-----------------------------------------------------------------------------------------

instance (s : List Char) : Decidable (Inline s) :=
  decidable_of_iff (s.all (fun c => Rewrite.isLineEnd c == false) = true) (by simp [Inline])

/-- Lines as a hand may lay them out that does not change what they say: each with blanks behind
it, blank lines in front of them, and blank lines and rules behind them. -/
structure Dress where
  front : List (List Char)
  rows : List (List Char × List Char)
  back : List (List Char)
  frontBlank : ∀ line ∈ front, Blanks line
  endsBlank : ∀ row ∈ rows, Blanks row.2
  backBare : ∀ line ∈ back, Blanks line ∨ isRule line = true
  inline : ∀ line ∈ front ++ rows.map (fun row => row.1 ++ row.2) ++ back, Inline line

namespace Dress

/-- The lines as they are laid out. -/
def lines (dress : Dress) : List (List Char) :=
  dress.front ++ dress.rows.map (fun row => row.1 ++ row.2) ++ dress.back

/-- The lines without what was added. -/
def bare (dress : Dress) : List (List Char) :=
  dress.rows.map Prod.fst

theorem inline_bare (dress : Dress) : ∀ row ∈ dress.bare, Inline row := by
  refine List.forall_mem_map.mpr fun row member c own => ?_
  have listed := List.mem_map_of_mem (f := fun row => row.1 ++ row.2) member
  exact dress.inline (row.1 ++ row.2)
    (List.mem_append_left _ (List.mem_append_right _ listed)) c (List.mem_append_left _ own)

theorem core_lines (dress : Dress)
    : core (dress.lines.map trimEnd) = core (dress.bare.map trimEnd) := by
  have empties : ∀ row ∈ dress.front.map trimEnd, row = [] :=
    List.forall_mem_map.mpr fun line member =>
      trimEnd_eq_nil_iff.mpr (dress.frontBlank line member)
  have decorations : ∀ row ∈ dress.back.map trimEnd, isDecoration row = true :=
    List.forall_mem_map.mpr fun line member =>
      isDecoration_trimEnd_iff.mpr (dress.backBare line member)
  have same
      : (dress.rows.map (fun row => row.1 ++ row.2)).map trimEnd = dress.bare.map trimEnd := by
    rw [bare, List.map_map, List.map_map]
    exact List.map_congr_left fun row member =>
      trimEnd_append_blanks (dress.endsBlank row member) row.1
  rw [lines, List.map_append, List.map_append, core_append_decorations decorations,
    core_append_empties empties, same]

end Dress

/-- The canonical form is a normal form: a text is its own exactly if nothing is left to take out
of it, and bodies that differ only in what is taken out have the same one. So they have the same
hash, and every stored hash is as right for one as for the other. -/
theorem form_canonical_of_dressed
    : (∀ body, IsCanonical (form body) ∧ form (form body) = form body)
      ∧ (∀ text, form text = text ↔ IsCanonical text)
      ∧ ∀ (dress : Dress) (terminator : List Char) (body : String),
          terminator ∈ terminators →
          Stacked terminator dress.lines body.toList →
          let bare := join ['\n'] dress.bare
          form body.toList = form bare
          ∧ ∀ length,
              BodyHash.compute body length = BodyHash.compute (String.ofList bare) length
              ∧ ∀ stored,
                  BodyHash.verify body stored length
                    = BodyHash.verify (String.ofList bare) stored length := by
  refine ⟨fun body => ⟨isCanonical_form body, form_form body⟩, fun _ => form_eq_self_iff, ?_⟩
  intro dress terminator body known stacked bare
  have same : form body.toList = form bare := by
    rw [form, form, lines_of_stacked known dress.inline stacked, lines_join_eq_core
      dress.inline_bare]
    exact congrArg (join ['\n']) dress.core_lines
  have hash (length : Nat)
      : BodyHash.compute body length = BodyHash.compute (String.ofList bare) length := by
    rw [BodyHash.compute, BodyHash.compute, String.toList_ofList, same]
  refine ⟨same, fun length => ⟨hash length, fun stored => ?_⟩⟩
  simp only [BodyHash.verify, hash length]

/-- Two assertions with carriage returns for line ends, blanks behind the first of them, blank
lines in front and a rule behind. -/
def returnedDress : Dress where
  front := ["".toList, " ".toList]
  rows := [("A. Ask.".toList, " \t".toList), ("B. Tell.".toList, [])]
  back := ["".toList, " ---".toList]
  frontBlank := by decide
  endsBlank := by decide
  backBare := by decide
  inline := by decide

theorem form_canonical_of_dressed_returnedDress
    : ['\r'] ∈ terminators
      ∧ Stacked ['\r'] returnedDress.lines "\r \rA. Ask. \t\rB. Tell.\r\r ---\r".toList
      ∧ form "\r \rA. Ask. \t\rB. Tell.\r\r ---\r".toList = "A. Ask.\nB. Tell.".toList
      ∧ BodyHash.verify "\r \rA. Ask. \t\rB. Tell.\r\r ---\r"
            (some (BodyHash.compute "A. Ask.\nB. Tell." 8)) 8
          = .valid := by
  have known : ['\r'] ∈ terminators := by decide
  have stacked
      : Stacked ['\r'] returnedDress.lines "\r \rA. Ask. \t\rB. Tell.\r\r ---\r".toList :=
    Or.inr (by decide)
  obtain ⟨same, hashes⟩ := form_canonical_of_dressed.2.2 returnedDress ['\r'] _ known stacked
  have bare : join ['\n'] returnedDress.bare = "A. Ask.\nB. Tell.".toList := by decide
  have canonical : IsCanonical "A. Ask.\nB. Tell.".toList := by
    exact ⟨by decide, by decide, by decide, by decide, by decide⟩
  refine ⟨known, stacked, ?_, ?_⟩
  · rw [same, bare]
    exact (form_canonical_of_dressed.2.1 _).mpr canonical
  · rw [(hashes 8).2, bare]
    exact BodyHash.verify_compute _ 8

end Canonical

end Traceability
