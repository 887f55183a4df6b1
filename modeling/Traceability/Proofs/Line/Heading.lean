import Traceability.Line.ClosingMarker
import Traceability.Proofs.Line.Parts

/-! Headings among the lines.
A heading starts with a number sign and a closing marker with an asterisk, so no line is both. On
a line without line feeds every title is a single line, so a line that opens like a heading is one.
-/

namespace Traceability

open Text

-----------------------------------------------------------------------------------------
-- Headings and closing markers
-----------------------------------------------------------------------------------------

namespace Heading

/-- What starts with another sign is no heading. -/
theorem parts?_of_start {text : String} {c : Char} {rest : List Char}
    (starts : text.toList = c :: rest) (other : c ≠ '#')
    (takeId? : List Char → Option (List Char × List Char))
    : parts? takeId? text = none := by
  have none : afterSigns? (c :: rest) = none := by simp [afterSigns?, other]
  rw [parts?, starts, none]
  rfl

end Heading

namespace ClosingMarker

/-- A closing marker starts with an asterisk and a letter. -/
theorem exists_start {text : String} (closes : (ofLine? text).isSome = true)
    : ∃ rest, text.toList = '*' :: 'E' :: rest := by
  obtain ⟨marker, read⟩ := Option.isSome_iff_exists.mp closes
  rw [ofLine?] at read
  split at read
  · next c s stripped =>
      rw [strip?_eq_some_iff] at stripped
      exact ⟨_, stripped⟩
  · exact absurd read (by simp)

theorem parts?_eq_none {text : String} (closes : (ofLine? text).isSome = true)
    (takeId? : List Char → Option (List Char × List Char))
    : Heading.parts? takeId? text = none := by
  obtain ⟨rest, starts⟩ := exists_start closes
  exact Heading.parts?_of_start starts (by decide) takeId?

end ClosingMarker

-----------------------------------------------------------------------------------------
-- Titles
-----------------------------------------------------------------------------------------

namespace Scheme

variable {scheme : Scheme} {s id rest : List Char}

theorem suffix_of_takeId? (taken : scheme.takeId? s = some (id, rest)) : rest <:+ s := by
  obtain ⟨⟨code, digits, behind⟩, found, same⟩ := Option.map_eq_some_iff.mp taken
  obtain ⟨-, rfl⟩ := Prod.mk.inj same
  obtain ⟨rfl, -⟩ := takePrefixed?_spec found
  exact ⟨scheme.idText code digits, by simp [idText]⟩

theorem suffix_of_takeJourneyId? (taken : scheme.takeJourneyId? s = some (id, rest))
    : rest <:+ s := by
  rw [takeJourneyId?] at taken
  split at taken
  · cases taken
  · next behind stripped =>
      dsimp only at taken
      split at taken
      · next after _ hyphen =>
          split at taken
          · cases taken
          · obtain ⟨-, rfl⟩ := Prod.mk.inj (Option.some.inj taken)
            calc
              after.dropWhile isDecimalDigit <:+ after := List.dropWhile_suffix _
              _ <:+ '-' :: after := List.suffix_cons '-' after
              _ = behind.dropWhile Char.isAlphanum := hyphen.symm
              _ <:+ behind := List.dropWhile_suffix _
              _ <:+ s := suffix_of_strip? stripped
      · cases taken

end Scheme

namespace Heading

theorem suffix_of_afterSigns? {s rest : List Char} (found : afterSigns? s = some rest)
    : rest <:+ s := by
  rw [afterSigns?] at found
  split at found
  · cases found
  · next c behind split =>
      obtain ⟨-, same⟩ := Option.ite_none_right_eq_some.mp found
      calc
        rest = trimStart (c :: behind) := (Option.some.inj same).symm
        _ <:+ c :: behind := trimStart_suffix _
        _ = s.dropWhile (· == '#') := split.symm
        _ <:+ s := List.dropWhile_suffix _

variable {takeId? : List Char → Option (List Char × List Char)} {text : String}

/-- What stands behind the colon of a heading stands on its line. -/
theorem suffix_of_parts?
    (takes : ∀ {s id rest : List Char}, takeId? s = some (id, rest) → rest <:+ s)
    {id rest : List Char} (read : parts? takeId? text = some (id, rest))
    : rest <:+ text.toList := by
  obtain ⟨named, signs, read⟩ := Option.bind_eq_some_iff.mp read
  obtain ⟨⟨own, behind⟩, taken, read⟩ := Option.bind_eq_some_iff.mp read
  obtain ⟨after, colon, read⟩ := Option.bind_eq_some_iff.mp read
  obtain ⟨-, rfl⟩ := Prod.mk.inj (Option.some.inj read)
  calc
    after <:+ trimStart behind := suffix_of_strip? colon
    _ <:+ behind := trimStart_suffix behind
    _ <:+ named := takes taken
    _ <:+ text.toList := suffix_of_afterSigns? signs

theorem singleLine?_of_plain {s : List Char} (plain : '\n' ∉ s)
    : singleLine? s = some (trim s) := by
  have inside : '\n' ∉ trim s := fun feed => plain ((isInfix_trim s).mem feed)
  rw [singleLine?]
  simp [inside]

/-- A line without line feeds that opens like a heading is one. -/
theorem isSome_ofParts?
    (takes : ∀ {s id rest : List Char}, takeId? s = some (id, rest) → rest <:+ s)
    (plain : '\n' ∉ text.toList)
    : (ofParts? takeId? text).isSome = (parts? takeId? text).isSome := by
  rw [ofParts?]
  cases read : parts? takeId? text with
  | none => rfl
  | some parts =>
      have title := singleLine?_of_plain fun feed => plain ((suffix_of_parts? takes read).mem feed)
      simp [title]

end Heading

end Traceability
