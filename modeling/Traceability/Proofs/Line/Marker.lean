import Traceability.Line.Marker
import Traceability.Proofs.Text.Padding
import Traceability.Proofs.Text.Split

/-! What a marker and its words are.
A marker may stand anywhere in a line, and the first one counts. The words behind it are described
by what stands between them: a word goes from a letter or digit to the last one in front of the next
comma or blank, and nothing is left out but characters that are neither.
-/

namespace Traceability.Marker

open Text

-----------------------------------------------------------------------------------------
-- Words
-----------------------------------------------------------------------------------------

/-- The characters between words: commas and blanks. -/
def separates (c : Char) : Bool :=
  c == ',' || isBlank c

/-- A word starts and ends with an ASCII letter or digit and has no comma or blank in it. -/
structure IsWord (word : List Char) : Prop where
  starts : ∃ c ∈ word.head?, c.isAlphanum = true
  ends : ∃ c ∈ word.getLast?, c.isAlphanum = true
  unbroken : ∀ c ∈ word, separates c = false

/-- The words of a text in order. Neither letters nor digits stand in front of a word, behind it up
to the next comma or blank, or in a text without words. -/
inductive Words : List Char → List (List Char) → Prop
  | none {s : List Char} (blank : ∀ c ∈ s, c.isAlphanum = false) : Words s []
  | word {front word behind rest : List Char} {more : List (List Char)}
      (blank : ∀ c ∈ front, c.isAlphanum = false)
      (isWord : IsWord word)
      (trailing : ∀ c ∈ behind, c.isAlphanum = false ∧ separates c = false)
      (next : ∀ c ∈ rest.head?, separates c = true)
      (further : Words rest more)
      : Words (front ++ (word ++ (behind ++ rest))) (word :: more)

variable {s front word behind rest : List Char}

theorem IsWord.ne_nil (isWord : IsWord word) : word ≠ [] := by
  rintro rfl
  obtain ⟨c, none, -⟩ := isWord.starts
  cases none

theorem isAlphanum_of_separates {c : Char} (separator : separates c = true)
    : c.isAlphanum = false := by
  rw [separates, Bool.or_eq_true, beq_iff_eq] at separator
  rcases separator with rfl | blank
  · rfl
  · rw [← Bool.not_eq_true]
    intro alphanumeric
    exact Bool.noConfusion (blank.symm.trans (isBlank_of_isAlphanum alphanumeric))

theorem words_eq (s : List Char)
    : words s
      = ((splitWhere separates s).map (trimWhile (fun c => !c.isAlphanum))).filter (· ≠ []) :=
  rfl

/-- The words on both sides of a comma or a blank. -/
theorem words_append_cons (s : List Char) {c : Char} (separator : separates c = true)
    (rest : List Char)
    : words (s ++ c :: rest) = words s ++ words rest := by
  simp only [words_eq, splitWhere_append_separator s separator, List.map_append,
    List.filter_append]

/-- A text without a comma or a blank has at most one word. -/
theorem words_of_plain (plain : ∀ c ∈ s, separates c = false)
    : words s = [trimWhile (fun c => !c.isAlphanum) s].filter (· ≠ []) := by
  rw [words_eq, splitWhere_of_plain plain]
  rfl

/-- A text goes on without a comma or a blank up to its end or to the first one. -/
theorem exists_plain_front (s : List Char)
    : ∃ front rest,
        s = front ++ rest
        ∧ (∀ c ∈ front, separates c = false)
        ∧ ∀ c ∈ rest.head?, separates c = true := by
  refine ⟨s.takeWhile (fun c => !separates c), s.dropWhile (fun c => !separates c),
    List.takeWhile_append_dropWhile.symm, fun c member => ?_, fun c first => ?_⟩
  · simpa using List.mem_takeWhile_imp member
  · have stopped := List.head?_dropWhile_not (fun c => !separates c) s
    rw [Option.mem_def.mp first] at stopped
    simpa using stopped

/-- The words in front of a comma, a blank or the end, and those behind it. -/
theorem words_append (front : List Char) (next : ∀ c ∈ rest.head?, separates c = true)
    : words (front ++ rest) = words front ++ words rest := by
  cases rest with
  | nil => rw [List.append_nil, show words [] = [] from rfl, List.append_nil]
  | cons c more =>
      have separator : separates c = true := next c rfl
      have alone : words (c :: more) = words more := words_append_cons [] separator more
      rw [words_append_cons front separator, alone]

/-- What is neither a letter nor a digit is in no word that starts behind it. -/
theorem words_cons {c : Char} (blank : c.isAlphanum = false) (s : List Char)
    : words (c :: s) = words s := by
  by_cases separator : separates c = true
  · exact words_append_cons [] separator s
  · obtain ⟨front, rest, rfl, plain, next⟩ := exists_plain_front s
    have also : ∀ d ∈ c :: front, separates d = false :=
      List.forall_mem_cons.mpr ⟨Bool.eq_false_iff.mpr separator, plain⟩
    rw [← List.cons_append, words_append _ next, words_append _ next, words_of_plain also,
      words_of_plain plain, trimWhile, trimWhile, List.dropWhile_cons_of_pos (by simp [blank])]

theorem words_append_of_blank (blank : ∀ c ∈ front, c.isAlphanum = false) (s : List Char)
    : words (front ++ s) = words s := by
  induction front with
  | nil => rfl
  | cons c front ih =>
      obtain ⟨here, further⟩ := List.forall_mem_cons.mp blank
      rw [List.cons_append, words_cons here, ih further]

/-- A word is what is left of it and of what is no letter or digit behind it. -/
theorem IsWord.trimWhile_append (isWord : IsWord word)
    (blank : ∀ c ∈ behind, c.isAlphanum = false)
    : trimWhile (fun c => !c.isAlphanum) (word ++ behind) = word := by
  obtain ⟨first, head, starts⟩ := isWord.starts
  obtain ⟨last, tail, ends⟩ := isWord.ends
  have front : (word ++ behind).dropWhile (fun c => !c.isAlphanum) = word ++ behind := by
    obtain ⟨more, rfl⟩ := List.head?_eq_some_iff.mp head
    exact List.dropWhile_cons_of_neg (by simp [starts])
  obtain ⟨init, rfl⟩ := List.getLast?_eq_some_iff.mp tail
  have back : ∀ c ∈ behind.reverse, (!c.isAlphanum) = true := by
    intro c member
    rw [blank c (List.mem_reverse.mp member)]
    rfl
  rw [trimWhile, front, dropEndWhile, List.reverse_append, List.dropWhile_append_of_pos back,
    List.reverse_concat, List.dropWhile_cons_of_neg (by simp [ends]), List.reverse_cons,
    List.reverse_reverse]

/-- A text without letters and digits has no words. -/
theorem words_eq_nil (blank : ∀ c ∈ s, c.isAlphanum = false) : words s = [] := by
  rw [← List.append_nil s, words_append_of_blank blank]
  rfl

/-- A word in front of a comma, a blank or the end is followed by the words behind that. -/
theorem words_word (isWord : IsWord word)
    (trailing : ∀ c ∈ behind, c.isAlphanum = false ∧ separates c = false)
    (next : ∀ c ∈ rest.head?, separates c = true)
    : words (word ++ (behind ++ rest)) = word :: words rest := by
  have plain : ∀ c ∈ word ++ behind, separates c = false := by
    intro c member
    rcases List.mem_append.mp member with own | later
    · exact isWord.unbroken c own
    · exact (trailing c later).2
  rw [← List.append_assoc, words_append _ next, words_of_plain plain,
    isWord.trimWhile_append (fun c member => (trailing c member).1)]
  simp [isWord.ne_nil]

/-- The words are those that the description has. Witness: induction along it. -/
theorem Words.eq {found : List (List Char)} (described : Words s found) : words s = found := by
  induction described with
  | none blank => exact words_eq_nil blank
  | word blank isWord trailing next further ih =>
      rw [words_append_of_blank blank, words_word isWord trailing next, ih]

/-- A text that starts with a letter or a digit starts with a word. -/
theorem exists_word {c : Char} (starts : c.isAlphanum = true) (s : List Char)
    : ∃ word behind rest,
        c :: s = word ++ (behind ++ rest)
        ∧ IsWord word
        ∧ (∀ d ∈ behind, d.isAlphanum = false ∧ separates d = false)
        ∧ ∀ d ∈ rest.head?, separates d = true := by
  obtain ⟨front, rest, rfl, plain, next⟩ := exists_plain_front s
  have solid : separates c = false := by
    rw [← Bool.not_eq_true]
    intro separator
    exact Bool.noConfusion (starts.symm.trans (isAlphanum_of_separates separator))
  have unbroken : ∀ d ∈ c :: front, separates d = false := List.forall_mem_cons.mpr ⟨solid, plain⟩
  -- The word ends at the last letter or digit.
  let word := (c :: front).rdropWhile (fun d => !d.isAlphanum)
  let behind := (c :: front).rtakeWhile (fun d => !d.isAlphanum)
  have split : word ++ behind = c :: front := List.rdropWhile_append_rtakeWhile
  have blank : ∀ d ∈ behind, d.isAlphanum = false := by
    intro d member
    simpa using List.mem_rtakeWhile_imp member
  have nonempty : word ≠ [] := by
    intro none
    rw [none, List.nil_append] at split
    exact Bool.noConfusion (starts.symm.trans (blank c (split ▸ List.mem_cons_self)))
  refine ⟨word, behind, rest, ?_, ?_, ?_, next⟩
  · rw [← List.append_assoc, split, List.cons_append]
  · refine ⟨⟨c, ?_, starts⟩, ⟨word.getLast nonempty, List.getLast?_eq_some_getLast nonempty, ?_⟩,
      fun d member => unbroken d (split ▸ List.mem_append_left _ member)⟩
    · rw [Option.mem_def, ← List.head?_append_of_ne_nil _ nonempty, split]
      rfl
    · simpa using List.rdropWhile_last_not (fun d => !d.isAlphanum) (c :: front) nonempty
  · exact fun d member => ⟨blank d member, unbroken d (split ▸ List.mem_append_right _ member)⟩

/-- Every text has words that are described so. Witness: recursion on what is left of it behind the
first word. -/
theorem exists_words (s : List Char) : ∃ found, Words s found := by
  by_cases blank : ∀ c ∈ s, c.isAlphanum = false
  · exact ⟨[], .none blank⟩
  · have some : (s.find? Char.isAlphanum).isSome = true := by
      push Not at blank
      obtain ⟨c, member, solid⟩ := blank
      exact List.find?_isSome.mpr ⟨c, member, by simpa using solid⟩
    obtain ⟨c, found⟩ := Option.isSome_iff_exists.mp some
    obtain ⟨starts, front, later, split, before⟩ := List.find?_eq_some_iff_append.mp found
    obtain ⟨word, behind, rest, body, isWord, trailing, next⟩ := exists_word starts later
    have shorter : rest.length < s.length := by
      have long := List.length_pos_of_ne_nil isWord.ne_nil
      rw [split, body]
      simp only [List.length_append]
      omega
    obtain ⟨more, further⟩ := exists_words rest
    rw [split, body]
    exact ⟨word :: more,
      .word (fun d member => by simpa using before d member) isWord trailing next further⟩
termination_by s.length

/-- The words of a text are exactly those that the description has. -/
theorem words_eq_iff {found : List (List Char)} : words s = found ↔ Words s found := by
  refine ⟨?_, Words.eq⟩
  rintro rfl
  obtain ⟨found, described⟩ := exists_words s
  exact described.eq ▸ described

-----------------------------------------------------------------------------------------
-- Markers
-----------------------------------------------------------------------------------------

/-- A marker stands at the start of a text: a sign, the keyword and a colon, with blanks around the
keyword, and the rest, which is on one line. Letters are compared by simple case folding. -/
def StandsAt (keyword s rest : List Char) : Prop :=
  ∃ sign blanks spelled more,
    s = sign ++ (blanks ++ (spelled ++ (more ++ ':' :: rest)))
    ∧ sign ∈ openingSigns
    ∧ Blanks blanks
    ∧ spelled.map simpleFold = keyword.map simpleFold
    ∧ Blanks more
    ∧ '\n' ∉ rest

/-- The first marker of a text has this rest: it stands at some place of the text, and none stands
at an earlier one. -/
def Finds (keyword s rest : List Char) : Prop :=
  ∃ part,
    part <:+ s
    ∧ StandsAt keyword part rest
    ∧ ∀ other tail, other <:+ s → StandsAt keyword other tail → other <:+ part

/-- A comment sign starts a text, with blanks around it, and the rest is on one line. -/
def Continues (s rest : List Char) : Prop :=
  ∃ front sign blanks,
    s = front ++ (sign ++ (blanks ++ rest))
    ∧ Blanks front
    ∧ sign ∈ continuationSigns
    ∧ Blanks blanks
    ∧ (∀ c ∈ rest.head?, isBlank c = false)
    ∧ '\n' ∉ rest

/-- No two of the signs start one text. -/
theorem eq_of_prefix_of_mem
    : (∀ a ∈ openingSigns, ∀ b ∈ openingSigns, a <+: b → a = b)
      ∧ ∀ a ∈ continuationSigns, ∀ b ∈ continuationSigns, a <+: b → a = b := by
  decide

/-- So each of them is taken off where it stands. -/
theorem stripSign?_eq_some_iff {signs : List (List Char)}
    (apart : ∀ a ∈ signs, ∀ b ∈ signs, a <+: b → a = b)
    : stripSign? signs s = some rest ↔ ∃ sign ∈ signs, s = sign ++ rest := by
  constructor
  · intro found
    obtain ⟨sign, listed, own⟩ := List.exists_of_findSome?_eq_some found
    exact ⟨sign, listed, strip?_eq_some_iff.mp own⟩
  · rintro ⟨sign, listed, rfl⟩
    have some : (stripSign? signs (sign ++ rest)).isSome = true :=
      List.findSome?_isSome_iff.mpr ⟨sign, listed, by rw [strip?_append]; rfl⟩
    obtain ⟨tail, found⟩ := Option.isSome_iff_exists.mp some
    obtain ⟨other, listedToo, own⟩ := List.exists_of_findSome?_eq_some found
    have split : sign ++ rest = other ++ tail := strip?_eq_some_iff.mp own
    obtain rfl : sign = other := by
      have front : other <+: sign ++ rest := split ▸ List.prefix_append other tail
      rcases List.prefix_or_prefix_of_prefix (List.prefix_append sign rest) front with own | own
      · exact apart sign listed other listedToo own
      · exact (apart other listedToo sign listed own).symm
    rw [found, List.append_cancel_left split]

/-- What is left of a text without the blanks at its start. -/
theorem trimStart_eq_iff {trimmed : List Char}
    : trimStart s = trimmed
      ↔ (∀ c ∈ trimmed.head?, isBlank c = false)
        ∧ ∃ blanks, Blanks blanks ∧ s = blanks ++ trimmed := by
  constructor
  · rintro rfl
    refine ⟨fun c first => ?_, exists_blanks_trimStart s⟩
    have stopped := List.head?_dropWhile_not isBlank s
    rw [← trimStart, Option.mem_def.mp first] at stopped
    exact stopped
  · rintro ⟨solid, blanks, blank, rfl⟩
    rw [trimStart_append blank]
    cases trimmed with
    | nil => rfl
    | cons c more => exact trimStart_cons (solid c rfl) more

theorem stripFolded?_eq_some_iff {keyword : List Char}
    : stripFolded? keyword s = some rest
      ↔ ∃ spelled, s = spelled ++ rest ∧ spelled.map simpleFold = keyword.map simpleFold := by
  induction keyword generalizing s with
  | nil => simp [stripFolded?, eq_comm]
  | cons w ws ih =>
      cases s with
      | nil => simp [stripFolded?]
      | cons c cs =>
          rw [stripFolded?]
          constructor
          · intro found
            split at found
            · next same =>
                obtain ⟨spelled, rfl, folds⟩ := ih.mp found
                exact ⟨c :: spelled, rfl, by rw [List.map_cons, List.map_cons, folds, same]⟩
            · cases found
          · rintro ⟨spelled, split, folds⟩
            obtain ⟨d, others, rfl, same, further⟩ := List.map_eq_cons_iff.mp folds
            obtain ⟨rfl, rfl⟩ := List.cons.inj split
            rw [if_pos same.symm]
            exact ih.mpr ⟨others, rfl, further⟩

section Keyword

variable {first : Char} {letters : List Char}

/-- A keyword that does not start with a blank is found behind the blanks. -/
theorem restAt?_eq_some_iff (solid : isBlank first = false)
    : restAt? (first :: letters) s = some rest ↔ StandsAt (first :: letters) s rest := by
  simp only [restAt?, Option.bind_eq_bind, Option.bind_eq_some_iff,
    stripSign?_eq_some_iff eq_of_prefix_of_mem.1, stripFolded?_eq_some_iff, strip?_eq_some_iff,
    trimStart_eq_iff, Option.ite_none_left_eq_some, Option.some.injEq, List.contains_iff_mem]
  constructor
  · rintro ⟨afterSign, ⟨sign, listed, rfl⟩, afterKeyword, ⟨spelled, ⟨-, blanks, blank, rfl⟩, folds⟩,
      _, ⟨-, more, blankToo, rfl⟩, plain, rfl⟩
    exact ⟨sign, blanks, spelled, more, rfl, listed, blank, folds, blankToo, plain⟩
  · rintro ⟨sign, blanks, spelled, more, rfl, listed, blank, folds, blankToo, plain⟩
    have solidToo : ∀ c ∈ (spelled ++ (more ++ ':' :: rest)).head?, isBlank c = false := by
      obtain ⟨c, others, rfl, same, -⟩ := List.map_eq_cons_iff.mp folds
      intro d own
      obtain rfl : c = d := Option.some.inj own
      rw [← isBlank_simpleFold, same, isBlank_simpleFold, solid]
    have colon : ∀ c ∈ ([':'] ++ rest).head?, isBlank c = false := by
      rintro c ⟨⟩
      rfl
    exact ⟨_, ⟨sign, listed, rfl⟩, _, ⟨spelled, ⟨solidToo, blanks, blank, rfl⟩, folds⟩, rest,
      ⟨colon, more, blankToo, rfl⟩, plain, rfl⟩

theorem StandsAt.ne_nil {keyword : List Char} (stands : StandsAt keyword s rest) : s ≠ [] := by
  obtain ⟨sign, blanks, spelled, more, rfl, -⟩ := stands
  simp

/-- What is found is the rest of the first marker. Witness: induction along the text; a place is
passed only if no marker stands there. -/
theorem rest?_eq_some_iff (solid : isBlank first = false)
    : rest? (first :: letters) s = some rest ↔ Finds (first :: letters) s rest := by
  induction s with
  | nil =>
      refine iff_of_false (by simp [rest?]) ?_
      rintro ⟨part, inside, stands, -⟩
      exact stands.ne_nil (List.suffix_nil.mp inside)
  | cons c s ih =>
      rw [rest?, Option.or_eq_some_iff, restAt?_eq_some_iff solid, ih]
      constructor
      · rintro (here | ⟨none, part, inside, stands, earliest⟩)
        · exact ⟨c :: s, List.suffix_rfl, here, fun other tail own _ => own⟩
        · refine ⟨part, inside.trans (List.suffix_cons c s), stands, fun other tail own there => ?_⟩
          rcases List.suffix_cons_iff.mp own with rfl | later
          · rw [(restAt?_eq_some_iff solid).mpr there] at none
            cases none
          · exact earliest other tail later there
      · rintro ⟨part, inside, stands, earliest⟩
        cases found : restAt? (first :: letters) (c :: s) with
        | none =>
            refine Or.inr ⟨rfl, part, ?_, stands, fun other tail own there =>
              earliest other tail (own.trans (List.suffix_cons c s)) there⟩
            rcases List.suffix_cons_iff.mp inside with rfl | later
            · rw [(restAt?_eq_some_iff solid).mpr stands] at found
              cases found
            · exact later
        | some tail =>
            have here := (restAt?_eq_some_iff solid).mp found
            have same : part = c :: s :=
              inside.eq_of_length_le (earliest _ tail List.suffix_rfl here).length_le
            exact Or.inl (same ▸ stands)

end Keyword

theorem continuation?_eq_some_iff : continuation? s = some rest ↔ Continues s rest := by
  simp only [continuation?, Option.bind_eq_bind, Option.bind_eq_some_iff,
    stripSign?_eq_some_iff eq_of_prefix_of_mem.2, Option.ite_none_left_eq_some, Option.some.injEq,
    List.contains_iff_mem]
  constructor
  · rintro ⟨afterSign, ⟨sign, listed, split⟩, plain, rfl⟩
    obtain ⟨-, front, blank, rfl⟩ := trimStart_eq_iff.mp split
    obtain ⟨solid, blanks, blankToo, own⟩ := trimStart_eq_iff.mp (Eq.refl (trimStart afterSign))
    exact ⟨front, sign, blanks, own ▸ rfl, blank, listed, blankToo, solid, plain⟩
  · rintro ⟨front, sign, blanks, rfl, blank, listed, blankToo, solid, plain⟩
    have behind : trimStart (blanks ++ rest) = rest :=
      trimStart_eq_iff.mpr ⟨solid, blanks, blankToo, rfl⟩
    refine ⟨blanks ++ rest, ⟨sign, listed, ?_⟩, by rw [behind]; exact plain, behind⟩
    have signs : ∀ sign ∈ continuationSigns, sign.head?.any (fun c => !isBlank c) = true := by
      decide
    obtain ⟨c, own, solidSign⟩ := (Option.any_eq_true _ _).mp (signs sign listed)
    obtain ⟨others, rfl⟩ := List.head?_eq_some_iff.mp own
    refine trimStart_eq_iff.mpr ⟨?_, front, blank, rfl⟩
    rintro d ⟨⟩
    simpa using solidSign

end Traceability.Marker
