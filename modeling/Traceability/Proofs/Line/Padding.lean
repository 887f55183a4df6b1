import Traceability.Line.ClosingMarker
import Traceability.Line.Definition
import Traceability.Line.Fields
import Traceability.Line.Marker
import Traceability.Proofs.Line.Item
import Traceability.Proofs.Text.Padding
import Traceability.Suppression

/-! Lines with spaces and tabs after them.
Each reader of a line returns what it returned without them: titles, values and texts are trimmed,
names and numbers end before the first blank, and words are separated by blanks.
-/

namespace Traceability

open Text

variable {s t : List Char}

/-- What readers of lines rely on: prefixes without spaces and tabs, identifiers with digits, and
keywords without blanks around them. -/
structure Scheme.Readable (scheme : Scheme) : Prop where
  idPrefix : Unpadded scheme.idPrefix.toList
  journeyPrefix : Unpadded scheme.journeyPrefix.toList
  idDigits : scheme.idDigits ≠ 0
  implementsKeyword : EndsSolid scheme.implementsKeyword.toList
  validatesKeyword : EndsSolid scheme.validatesKeyword.toList

-----------------------------------------------------------------------------------------
-- Identifiers
-----------------------------------------------------------------------------------------

namespace Scheme

theorem unpadded_separated {word : List Char} (unpadded : Unpadded word)
    : Unpadded (word ++ ['-']) := by
  constructor
  · simpa using unpadded.1
  · simpa using unpadded.2

/-- A digit too few is not made up for by a space or a tab. -/
theorem takeDigits?_padded (scheme : Scheme) (padded : Padded s t)
    : Option.Rel SameFront (scheme.takeDigits? s) (scheme.takeDigits? t) := by
  have skips : Skips isDecimalDigit := by decide
  have same := padded.takeWhile_eq skips
  rw [takeDigits?, takeDigits?]
  split
  · by_cases long : scheme.idDigits ≤ s.length
    · have taken : t.take scheme.idDigits = s.take scheme.idDigits := by
        obtain ⟨padding, rfl⟩ := padded.exists_padding
        exact List.take_append_of_le_length long
      simp only [taken]
      split
      · exact .some ⟨rfl, padded.drop long⟩
      · exact .none
    · have short (u : List Char) (front : u.takeWhile isDecimalDigit = s.takeWhile isDecimalDigit)
          : ¬ ((u.take scheme.idDigits).length = scheme.idDigits
              ∧ (u.take scheme.idDigits).all isDecimalDigit = true) := by
        intro ⟨size, digits⟩
        have run : (u.take scheme.idDigits).length ≤ (u.takeWhile isDecimalDigit).length := by
          conv_rhs => rw [← List.take_append_drop scheme.idDigits u]
          rw [List.takeWhile_append_of_pos (List.all_eq_true.mp digits), List.length_append]
          omega
        have fits : (s.takeWhile isDecimalDigit).length ≤ s.length :=
          (List.takeWhile_prefix _).length_le
        rw [front, size] at run
        omega
      rw [if_neg (short s rfl), if_neg (short t same)]
      exact .none
  · rw [same]
    split
    · exact .none
    · exact .some ⟨rfl, padded.dropWhile isDecimalDigit⟩

/-- Without digits there is no identifier, so the level codes need not be looked at. -/
theorem Readable.takeCode?_padded {scheme : Scheme} (readable : scheme.Readable)
    (padded : Padded s t)
    : Option.Rel (fun found other => other.1 = found.1 ∧ SameFront found.2 other.2)
        (scheme.takeCode? s) (scheme.takeCode? t) := by
  cases padded with
  | nil => exact .none
  | @padding c t spaceOrTab further =>
      have digits := scheme.takeDigits?_padded further
      have none : scheme.takeDigits? [] = none := by
        rw [takeDigits?]
        split
        · simp [Ne.symm readable.idDigits]
        · rfl
      rw [none] at digits
      rw [takeCode?, takeCode?]
      generalize scheme.takeDigits? t = found at digits
      cases digits
      rw [Option.map_none, ite_self]
      exact .none
  | @cons code s t rest =>
      rw [takeCode?, takeCode?]
      split
      · exact rel_map (scheme.takeDigits?_padded rest) (fun _ _ parts => ⟨rfl, parts⟩)
      · exact .none

theorem Readable.takeId?_padded {scheme : Scheme} (readable : scheme.Readable)
    (padded : Padded s t)
    : Option.Rel SameFront (scheme.takeId? s) (scheme.takeId? t) := by
  have parts
      : Option.Rel (fun found other => other.1 = found.1 ∧ SameFront found.2 other.2)
          (scheme.takePrefixed? '-' s) (scheme.takePrefixed? '-' t) :=
    rel_bind (padded.strip? (unpadded_separated readable.idPrefix))
      (fun _ _ rest => readable.takeCode?_padded rest)
  refine rel_map parts ?_
  rintro ⟨code, digits, rest⟩ ⟨_, _, other⟩ ⟨rfl, rfl, behind⟩
  exact ⟨rfl, behind⟩

theorem Readable.takeJourneyId?_padded {scheme : Scheme} (readable : scheme.Readable)
    (padded : Padded s t)
    : Option.Rel SameFront (scheme.takeJourneyId? s) (scheme.takeJourneyId? t) := by
  have behind := padded.strip? (unpadded_separated readable.journeyPrefix)
  rw [takeJourneyId?, takeJourneyId?]
  generalize strip? (scheme.journeyPrefix.toList ++ ['-']) s = found at behind ⊢
  generalize strip? (scheme.journeyPrefix.toList ++ ['-']) t = other at behind ⊢
  cases behind with
  | none => exact .none
  | @some s t padded =>
      have skips : Skips Char.isAlphanum := by decide
      have after := padded.dropWhile Char.isAlphanum
      simp only [padded.takeWhile_eq skips]
      cases s.takeWhile Char.isAlphanum with
      | nil => exact .none
      | cons first name =>
          generalize s.dropWhile Char.isAlphanum = left at after ⊢
          generalize t.dropWhile Char.isAlphanum = more at after ⊢
          cases after with
          | nil => exact .none
          | padding spaceOrTab further => rcases spaceOrTab with rfl | rfl <;> exact .none
          | @cons c s t rest =>
              by_cases hyphen : c = '-'
              · subst hyphen
                have digits : Skips isDecimalDigit := by decide
                simp only [rest.takeWhile_eq digits]
                cases s.takeWhile isDecimalDigit with
                | nil => exact .none
                | cons digit number => exact .some ⟨rfl, rest.dropWhile isDecimalDigit⟩
              · split
                · next _ same => exact absurd (List.cons.inj same).1 hyphen
                · split
                  · next _ same => exact absurd (List.cons.inj same).1 hyphen
                  · exact .none

end Scheme

-----------------------------------------------------------------------------------------
-- Headings
-----------------------------------------------------------------------------------------

namespace Heading

/-- Number signs with nothing but spaces and tabs behind them are followed by no identifier. -/
theorem afterSigns?_padded (padded : Padded s t)
    : Padded ((afterSigns? s).getD []) ((afterSigns? t).getD []) := by
  have skips : Skips (· == '#') := by decide
  have behind := padded.dropWhile (· == '#')
  simp only [afterSigns?, padded.takeWhile_eq skips]
  generalize s.dropWhile (· == '#') = left at behind ⊢
  generalize t.dropWhile (· == '#') = more at behind ⊢
  cases behind with
  | nil => exact .nil
  | padding spaceOrTab further =>
      dsimp only
      split
      · exact (Padded.padding spaceOrTab further).trimStart
      · exact .nil
  | cons c rest =>
      dsimp only
      split
      · exact (Padded.cons c rest).trimStart
      · exact .nil

theorem singleLine?_padded (padded : Padded s t) : singleLine? t = singleLine? s := by
  rw [singleLine?, singleLine?, padded.trim_eq]

section Parts

variable {takeId? : List Char → Option (List Char × List Char)} {text other : String}

/-- A heading is recognized if its identifier is. -/
theorem parts?_padded (nothing : takeId? [] = none)
    (recognized : ∀ s t, Padded s t → Option.Rel SameFront (takeId? s) (takeId? t))
    (padded : Padded text.toList other.toList)
    : Option.Rel SameFront (parts? takeId? text) (parts? takeId? other) := by
  simp only [parts?, Option.bind_eq_bind]
  rw [bind_eq_getD (by rw [nothing]; rfl), bind_eq_getD (by rw [nothing]; rfl)]
  refine rel_bind (recognized _ _ (afterSigns?_padded padded)) ?_
  rintro ⟨id, s⟩ ⟨_, t⟩ ⟨rfl, rest⟩
  have colon : Unpadded [':'] := by decide
  exact rel_bind (rest.trimStart.strip? colon) (fun _ _ title => .some ⟨rfl, title⟩)

theorem ofParts?_padded (nothing : takeId? [] = none)
    (recognized : ∀ s t, Padded s t → Option.Rel SameFront (takeId? s) (takeId? t))
    (padded : Padded text.toList other.toList)
    : ofParts? takeId? other = ofParts? takeId? text := by
  refine bind_eq_of_rel (parts?_padded nothing recognized padded) ?_
  rintro ⟨id, s⟩ ⟨_, t⟩ ⟨rfl, rest⟩
  simp only [singleLine?_padded rest]

end Parts

end Heading

namespace Scheme.Readable

variable {scheme : Scheme} {text other : String}

theorem takeId?_nil (scheme : Scheme) : scheme.takeId? [] = none := by
  have none : strip? (scheme.idPrefix.toList ++ ['-']) [] = none := by
    cases scheme.idPrefix.toList <;> rfl
  rw [takeId?, takePrefixed?, none]
  rfl

theorem takeJourneyId?_nil (scheme : Scheme) : scheme.takeJourneyId? [] = none := by
  have none : strip? (scheme.journeyPrefix.toList ++ ['-']) [] = none := by
    cases scheme.journeyPrefix.toList <;> rfl
  rw [takeJourneyId?, none]

theorem requirement?_padded (readable : scheme.Readable)
    (padded : Padded text.toList other.toList)
    : Heading.requirement? scheme other = Heading.requirement? scheme text :=
  Heading.ofParts?_padded (takeId?_nil scheme) (fun _ _ => readable.takeId?_padded) padded

theorem journey?_padded (readable : scheme.Readable) (padded : Padded text.toList other.toList)
    : Heading.journey? scheme other = Heading.journey? scheme text :=
  Heading.ofParts?_padded (takeJourneyId?_nil scheme) (fun _ _ => readable.takeJourneyId?_padded)
    padded

theorem opensRequirement_padded (readable : scheme.Readable)
    (padded : Padded text.toList other.toList)
    : Heading.opensRequirement scheme other = Heading.opensRequirement scheme text :=
  isSome_eq_of_rel (Heading.parts?_padded (takeId?_nil scheme)
    (fun _ _ => readable.takeId?_padded) padded)

theorem opensJourney_padded (readable : scheme.Readable)
    (padded : Padded text.toList other.toList)
    : Heading.opensJourney scheme other = Heading.opensJourney scheme text :=
  isSome_eq_of_rel (Heading.parts?_padded (takeJourneyId?_nil scheme)
    (fun _ _ => readable.takeJourneyId?_padded) padded)

end Scheme.Readable

-----------------------------------------------------------------------------------------
-- Metadata, items and closing markers
-----------------------------------------------------------------------------------------

theorem Field.ofSegment?_padded (padded : Padded s t) : ofSegment? t = ofSegment? s := by
  rw [ofSegment?, ofSegment?, padded.trim_eq]

theorem Field.ofLine_padded {text other : String} (padded : Padded text.toList other.toList)
    : ofLine other = ofLine text := by
  have skips : Skips (· == '|') := by decide
  have pieces := padded.splitWhere skips
  rw [ofLine, ofLine]
  generalize splitWhere (· == '|') text.toList = left at pieces ⊢
  generalize splitWhere (· == '|') other.toList = more at pieces ⊢
  induction pieces with
  | nil => rfl
  | cons first _ ih => rw [List.filterMap_cons, List.filterMap_cons, ofSegment?_padded first, ih]

namespace Item

theorem text?_padded (padded : Padded s t) : text? t = text? s := by
  obtain ⟨padding, rfl⟩ := padded.exists_padding
  exact text?_append_blanks padding.blanks s

theorem assertion?_padded {text other : String} (padded : Padded text.toList other.toList)
    : assertion? other = assertion? text := by
  obtain ⟨padding, same⟩ := padded.exists_padding
  have read := assertion?_append_blanks padding.blanks text.toList
  rwa [← same, String.ofList_toList, String.ofList_toList] at read

theorem step?_padded {text other : String} (padded : Padded text.toList other.toList)
    : step? other = step? text := by
  have skips : Skips isDecimalDigit := by decide
  have behind := padded.trimStart
  simp only [step?, behind.takeWhile_eq skips, text?_padded (behind.dropWhile isDecimalDigit)]

theorem continues_padded {text other : String} (padded : Padded text.toList other.toList)
    : continues other = continues text := by
  obtain ⟨padding, same⟩ := padded.exists_padding
  have read := continues_append_blanks padding.blanks text.toList
  rwa [← same, String.ofList_toList, String.ofList_toList] at read

end Item

namespace ClosingMarker

theorem storedHash?_padded (padded : Padded s t) : storedHash? t = storedHash? s := by
  have bar : Unpadded ['|'] := by decide
  have key : Unpadded "**Hash**".toList := by decide
  have colon : Unpadded [':'] := by decide
  have skips : Skips (fun c => !isBlank c) := by decide
  refine bind_eq_of_rel (padded.trimStart.strip? bar) (fun _ _ afterBar => ?_)
  refine bind_eq_of_rel (afterBar.trimStart.strip? key) (fun _ _ afterKey => ?_)
  refine bind_eq_of_rel (afterKey.trimStart.strip? colon) (fun _ _ afterColon => ?_)
  simp only [afterColon.trimStart.takeWhile_eq skips,
    (afterColon.trimStart.dropWhile (fun c => !isBlank c)).all_eq]

/-- A name without the asterisk that ends it is none, whatever stands after it. -/
theorem named?_padded (padded : Padded s t) : named? t = named? s := by
  have star : Unpadded ['*'] := by decide
  refine bind_eq_of_rel (padded.strip? star) (fun s t name => ?_)
  have closed := (name.dropWhile (· != '*')).strip? star
  dsimp only
  cases found : strip? ['*'] (s.dropWhile (· != '*')) with
  | none =>
      rw [found] at closed
      generalize strip? ['*'] (t.dropWhile (· != '*')) = more at closed ⊢
      cases closed
      rfl
  | some rest =>
      have ended : s.dropWhile (· != '*') ≠ [] := by
        intro none
        rw [none] at found
        exact absurd found (by simp [strip?])
      rw [found] at closed
      rw [name.takeWhile_eq_of_ended ended]
      generalize strip? ['*'] (t.dropWhile (· != '*')) = more at closed ⊢
      cases closed with
      | some rest =>
          simp only [Option.bind_eq_bind, Option.bind_some, rest.all_eq, storedHash?_padded rest]

theorem ofLine?_padded {text other : String} (padded : Padded text.toList other.toList)
    : ofLine? other = ofLine? text := by
  have sign : Unpadded "*End*".toList := by decide
  have behind := padded.strip? sign
  rw [ofLine?, ofLine?]
  generalize strip? "*End*".toList text.toList = left at behind ⊢
  generalize strip? "*End*".toList other.toList = more at behind ⊢
  cases behind with
  | none => rfl
  | some rest =>
      cases rest with
      | nil => rfl
      | padding spaceOrTab further =>
          dsimp only
          rw [named?_padded further.trimStart]
          exact ite_self _
      | cons c rest =>
          dsimp only
          rw [named?_padded rest.trimStart]

end ClosingMarker

-----------------------------------------------------------------------------------------
-- Markers in comments
-----------------------------------------------------------------------------------------

namespace Marker

theorem stripSign?_padded {signs : List (List Char)} (unpadded : ∀ sign ∈ signs, Unpadded sign)
    (padded : Padded s t)
    : Option.Rel Padded (stripSign? signs s) (stripSign? signs t) := by
  rw [stripSign?, stripSign?]
  induction signs with
  | nil => exact .none
  | cons sign rest ih =>
      have first := padded.strip? (unpadded sign List.mem_cons_self)
      rw [List.findSome?_cons, List.findSome?_cons]
      generalize strip? sign s = left at first ⊢
      generalize strip? sign t = more at first ⊢
      cases first with
      | some behind => exact .some behind
      | none => exact ih (fun other member => unpadded other (List.mem_cons_of_mem sign member))

theorem unpadded_openingSigns : ∀ sign ∈ openingSigns, Unpadded sign := by
  decide

theorem unpadded_continuationSigns : ∀ sign ∈ continuationSigns, Unpadded sign := by
  decide

theorem restAt?_padded {keyword : List Char} (solid : EndsSolid keyword) (padded : Padded s t)
    : Option.Rel Padded (restAt? keyword s) (restAt? keyword t) := by
  have colon : Unpadded [':'] := by decide
  refine rel_bind (stripSign?_padded unpadded_openingSigns padded) (fun _ _ afterSign => ?_)
  rw [stripFolded?_eq_stripBy, stripFolded?_eq_stripBy]
  refine rel_bind (afterSign.trimStart.stripBy solid.simpleFold) (fun _ _ afterKeyword => ?_)
  refine rel_bind (afterKeyword.trimStart.strip? colon) (fun _ _ rest => ?_)
  rw [rest.contains_feed_eq]
  split
  · exact .none
  · exact .some rest

theorem rest?_padded {keyword : List Char} (solid : EndsSolid keyword) (padded : Padded s t)
    : Option.Rel Padded (rest? keyword s) (rest? keyword t) := by
  induction padded with
  | nil => exact .none
  | @padding c t spaceOrTab further ih =>
      have here := restAt?_padded solid (Padded.padding spaceOrTab further)
      have none : restAt? keyword [] = none := rfl
      rw [none] at here
      rw [rest?] at ih ⊢
      rw [rest?]
      generalize restAt? keyword (c :: t) = found at here ⊢
      cases here
      exact ih
  | @cons c s t rest ih =>
      have here := restAt?_padded solid (Padded.cons c rest)
      rw [rest?, rest?]
      generalize restAt? keyword (c :: s) = left at here ⊢
      generalize restAt? keyword (c :: t) = more at here ⊢
      cases here with
      | some behind => exact .some behind
      | none => exact ih

theorem continuation?_padded (padded : Padded s t)
    : Option.Rel Padded (continuation? s) (continuation? t) := by
  refine rel_bind (stripSign?_padded unpadded_continuationSigns padded.trimStart)
    (fun _ _ behind => ?_)
  dsimp only
  rw [behind.trimStart.contains_feed_eq]
  split
  · exact .none
  · exact .some behind.trimStart

/-- The pieces that spaces and tabs cut off hold no word. -/
theorem words_padded (padded : Padded s t) : words t = words s := by
  obtain ⟨padding, rfl⟩ := padded.exists_padding
  have separate : ∀ c ∈ padding.chars, (c == ',' || isBlank c) = true := by
    intro c member
    rw [padding.blanks c member, Bool.or_true]
  have empty : trimWhile (fun c => !c.isAlphanum) [] = [] := rfl
  rw [words, words, splitWhere_append separate, List.map_append, List.filter_append,
    List.map_replicate, empty]
  simp

end Marker

-----------------------------------------------------------------------------------------
-- Function names and suppressions
-----------------------------------------------------------------------------------------

namespace Definition

theorem afterBlanks?_padded (padded : Padded s t)
    : Padded ((afterBlanks? s).getD []) ((afterBlanks? t).getD []) := by
  cases padded with
  | nil => exact .nil
  | @padding c t spaceOrTab further =>
      rw [afterBlanks?, afterBlanks?]
      split
      · exact further.trimStart
      · exact .nil
  | cons c rest =>
      rw [afterBlanks?, afterBlanks?]
      split
      · exact rest.trimStart
      · exact .nil

theorem afterParens?_padded (padded : Padded s t)
    : Option.Rel Padded (afterParens? s) (afterParens? t) := by
  have opening : Unpadded ['('] := by decide
  have closing : Unpadded [')'] := by decide
  exact rel_bind (padded.strip? opening)
    (fun _ _ inside => (inside.dropWhile (· != ')')).strip? closing)

theorem afterVisibility?_padded (padded : Padded s t)
    : Padded ((afterVisibility? s).getD []) ((afterVisibility? t).getD []) := by
  have word : Unpadded "pub".toList := by decide
  have behind := padded.strip? word
  rw [afterVisibility?, afterVisibility?]
  generalize strip? "pub".toList s = left at behind ⊢
  generalize strip? "pub".toList t = more at behind ⊢
  cases behind with
  | none => exact padded
  | @some s t rest =>
      refine afterBlanks?_padded ?_
      have parens := afterParens?_padded rest
      generalize afterParens? s = left at parens ⊢
      generalize afterParens? t = more at parens ⊢
      cases parens with
      | none => exact rest
      | some after => exact after

theorem afterAsync?_padded (padded : Padded s t)
    : Padded ((afterAsync? s).getD []) ((afterAsync? t).getD []) := by
  have word : Unpadded "async".toList := by decide
  have behind := padded.strip? word
  rw [afterAsync?, afterAsync?]
  generalize strip? "async".toList s = left at behind ⊢
  generalize strip? "async".toList t = more at behind ⊢
  cases behind with
  | none => exact padded
  | some rest => exact afterBlanks?_padded rest

/-- The text after a keyword and blanks. -/
def afterKeyword? (words : List (List Char)) (s : List Char) : Option (List Char) :=
  words.findSome? (fun word => (strip? word s).bind afterBlanks?)

/-- A line that is nothing but a keyword defines nothing, with or without blanks after it. -/
theorem afterKeyword?_padded {words : List (List Char)}
    (solid : ∀ word ∈ words, ∀ c ∈ word, isBlank c = false) (padded : Padded s t)
    : Padded ((afterKeyword? words s).getD []) ((afterKeyword? words t).getD []) := by
  have nothing {s : List Char} (solid : ∀ c ∈ s, isBlank c = false) (words : List (List Char))
      : afterKeyword? words s = none := by
    refine List.findSome?_eq_none_iff.mpr (fun word _ => ?_)
    cases found : strip? word s with
    | none => rfl
    | some rest =>
        rw [strip?_eq_some_iff] at found
        cases rest with
        | nil => rfl
        | cons c rest =>
            have first := solid c (found ▸ List.mem_append_right word List.mem_cons_self)
            rw [Option.bind_some, afterBlanks?, first]
            rfl
  induction words with
  | nil => exact .nil
  | cons word rest ih =>
      have own := solid word List.mem_cons_self
      have unpadded : Unpadded word :=
        ⟨fun member => absurd (own ' ' member) (by decide),
          fun member => absurd (own '\t' member) (by decide)⟩
      have later := ih (fun other member => solid other (List.mem_cons_of_mem word member))
      have front := padded.strip? unpadded
      have step (u : List Char)
          : afterKeyword? (word :: rest) u
            = ((strip? word u).bind afterBlanks?).or (afterKeyword? rest u) := by
        rw [afterKeyword?, List.findSome?_cons]
        cases (strip? word u).bind afterBlanks? <;> rfl
      rw [step, step]
      cases found : strip? word s with
      | none =>
          rw [found] at front
          generalize strip? word t = more at front ⊢
          cases front
          exact later
      | some left =>
          rw [found] at front
          rw [strip?_eq_some_iff] at found
          generalize strip? word t = more at front ⊢
          cases front with
          | @some _ more behind =>
              cases behind with
              | nil => exact later
              | @padding c more spaceOrTab further =>
                  -- The text is the keyword, so no other keyword fits it either.
                  rw [List.append_nil] at found
                  have blank : isBlank c = true := by
                    rcases spaceOrTab with rfl | rfl <;> rfl
                  rw [nothing (found ▸ own) rest, Option.bind_some, Option.bind_some, afterBlanks?,
                    afterBlanks?, if_pos blank]
                  exact further.trimStart
              | cons c behind =>
                  rw [Option.bind_some, Option.bind_some, afterBlanks?, afterBlanks?]
                  split
                  · exact behind.trimStart
                  · exact later

/-- The name at the start of a text, if one may start there. -/
def nameAt? : List Char → Option (List Char)
  | [] => none
  | c :: rest => if isNameStart c then some (c :: rest.takeWhile isNamePart) else none

theorem nameAt?_padded (padded : Padded s t) : nameAt? t = nameAt? s := by
  have skips : Skips isNamePart := by decide
  cases padded with
  | nil => rfl
  | padding spaceOrTab further => rcases spaceOrTab with rfl | rfl <;> rfl
  | cons c rest => rw [nameAt?, nameAt?, rest.takeWhile_eq skips]

/-- A name is read in four steps, none of which finds anything in the empty text. -/
theorem name?_eq (text : String)
    : name? text
      = let visible := (afterVisibility? (trimStart text.toList)).getD []
        let synchronous := (afterAsync? visible).getD []
        nameAt? ((afterKeyword? keywords synchronous).getD []) := by
  have read
      : name? text
        = (afterVisibility? (trimStart text.toList)).bind (fun s =>
            (afterAsync? s).bind (fun s => (afterKeyword? keywords s).bind nameAt?)) := by
    rfl
  rw [read, bind_eq_getD rfl, bind_eq_getD rfl, bind_eq_getD rfl]

theorem name?_padded {text other : String} (padded : Padded text.toList other.toList)
    : name? other = name? text := by
  have solid : ∀ word ∈ keywords, ∀ c ∈ word, isBlank c = false := by
    intro word member
    simp only [keywords, List.map_cons, List.map_nil, List.mem_cons, List.not_mem_nil,
      or_false] at member
    rcases member with rfl | rfl | rfl | rfl <;> exact forall_mem_of_all (by decide)
  rw [name?_eq, name?_eq]
  exact nameAt?_padded (afterKeyword?_padded solid
    (afterAsync?_padded (afterVisibility?_padded padded.trimStart)))

end Definition

theorem Suppression.count?_padded (padded : Padded s t) : count? t = count? s := by
  have sign : Unpadded "elspais:".toList := by decide
  have key : Unpadded "expected-broken-links".toList := by decide
  have skips : Skips Char.isDigit := by decide
  refine bind_eq_of_rel (padded.cutFirst? (by decide) sign) ?_
  rintro ⟨before, s⟩ ⟨_, t⟩ ⟨-, behind⟩
  refine bind_eq_of_rel (behind.trimStart.strip? key) (fun _ _ rest => ?_)
  simp only [rest.trimStart.takeWhile_eq skips]

end Traceability
