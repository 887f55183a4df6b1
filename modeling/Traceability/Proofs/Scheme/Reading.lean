import Traceability.Proofs.Scheme.Identifier

/-! Identifiers read back.
A heading takes an identifier off the front of a text, and a reference is an identifier as a
whole. Both take the same prefix, code and digits, but only the whole identifier must have a
number.
-/

namespace Traceability

open Text

namespace Identifier

/-- The letters of a reference, each after a hyphen. -/
def suffix (letters : List Char) : String :=
  String.ofList (letters.flatMap (fun letter => ['-', letter]))

theorem letters?_suffix {letters : List Char} (upper : ∀ letter ∈ letters, letter.isUpper = true)
    : letters? (suffix letters).toList = some letters := by
  rw [suffix, String.toList_ofList]
  induction letters with
  | nil => rfl
  | cons letter rest ih =>
      have later := ih (fun other member => upper other (List.mem_cons_of_mem _ member))
      simp only [List.flatMap_cons, List.cons_append, List.nil_append, letters?,
        upper letter List.mem_cons_self, if_pos, later, Option.map_some]

theorem isDecimalDigit_of_head?_suffix (letters : List Char)
    : ∀ c ∈ (suffix letters).toList.head?, isDecimalDigit c = false := by
  rw [suffix, String.toList_ofList]
  intro c first
  cases letters with
  | nil => exact absurd first (by simp)
  | cons letter rest =>
      obtain rfl : '-' = c := by simpa using first
      exact isDecimalDigit_hyphen

end Identifier

namespace Scheme

variable {scheme : Scheme}

/-- Digits that an identifier may have, of any script: as many as are configured if numbers are
padded, and otherwise at least one. -/
structure Admits (scheme : Scheme) (digits : List Char) : Prop where
  decimal : ∀ c ∈ digits, isDecimalDigit c = true
  nonempty : digits ≠ []
  width : scheme.zeroPadded = true → digits.length = scheme.idDigits

theorem admits_of_takeDigits? (positive : scheme.idDigits ≠ 0) {s digits rest : List Char}
    (taken : scheme.takeDigits? s = some (digits, rest))
    : scheme.Admits digits := by
  have decimal := (takeDigits?_spec taken).2
  rw [takeDigits?] at taken
  split at taken
  · dsimp only at taken
    split at taken
    · next checked =>
        obtain ⟨rfl, -⟩ := Prod.mk.inj (Option.some.inj taken)
        exact {
          decimal
          nonempty := by
            intro none
            have width := checked.1
            rw [none] at width
            exact positive width.symm
          width := fun _ => checked.1 }
    · cases taken
  · next unpadded =>
      split at taken
      · cases taken
      · next nonempty =>
          obtain ⟨rfl, -⟩ := Prod.mk.inj (Option.some.inj taken)
          exact ⟨decimal, nonempty, fun padded => absurd padded unpadded⟩

/-- Digits are taken whole off the front of a text that goes on with no further digit. -/
theorem Admits.takeDigits?_append {digits : List Char} (admits : scheme.Admits digits)
    {rest : List Char} (apart : ∀ c ∈ rest.head?, isDecimalDigit c = false)
    : scheme.takeDigits? (digits ++ rest) = some (digits, rest) := by
  have all : digits.all isDecimalDigit = true := List.all_eq_true.mpr admits.decimal
  cases padded : scheme.zeroPadded with
  | true =>
      have width := admits.width padded
      simp only [takeDigits?, padded, if_pos, ← width, List.take_left, List.drop_left, all,
        and_self]
  | false =>
      obtain ⟨taken, left⟩ := takeWhile_dropWhile_append admits.decimal apart
      simp only [takeDigits?, padded, Bool.false_eq_true, if_false, taken, left]
      split
      · exact absurd rfl admits.nonempty
      · rfl

/-- A code that is listed is that of a level. -/
theorem levelByCode?_of_mem {code : Char} (listed : code ∈ scheme.levelCodes)
    : ∃ level, scheme.levelByCode? code = some level ∧ level.code = code := by
  obtain ⟨level, member, same⟩ := List.mem_map.mp listed
  have found : (scheme.levelByCode? code).isSome = true :=
    List.find?_isSome.mpr ⟨level, member, decide_eq_true same⟩
  obtain ⟨first, here⟩ := Option.isSome_iff_exists.mp found
  have sameCode := List.find?_some here
  exact ⟨first, here, of_decide_eq_true sameCode⟩

/-- The identifier at the front of a text has digits that are admitted and the code of a level. -/
theorem admits_of_takeId? (positive : scheme.idDigits ≠ 0) {s id rest : List Char}
    (taken : scheme.takeId? s = some (id, rest))
    : ∃ code digits,
        id = scheme.idText code digits ∧ code ∈ scheme.levelCodes ∧ scheme.Admits digits := by
  obtain ⟨⟨code, digits, behind⟩, found, same⟩ := Option.map_eq_some_iff.mp taken
  cases same
  obtain ⟨after, -, listed, own⟩ := takePrefixed?_eq_some_iff.mp found
  exact ⟨code, digits, rfl, listed, admits_of_takeDigits? positive own⟩

/-- Whether an identifier is read back, with any letters behind it, depends on its digits only:
they must be ASCII and write a number that is not too large. -/
theorem parseId?_append_suffix {id : String} {code : Char} {digits : List Char}
    (written : id.toList = scheme.idText code digits) (listed : code ∈ scheme.levelCodes)
    (admits : scheme.Admits digits) {letters : List Char}
    (upper : ∀ letter ∈ letters, letter.isUpper = true)
    : scheme.parseId? (id ++ Identifier.suffix letters)
      = if digits.all Char.isDigit ∧ Nat.ofDigitChars 10 digits 0 ≤ Identifier.maxNumber then
          some ⟨code, Nat.ofDigitChars 10 digits 0, letters⟩
        else none := by
  have whole : (id ++ Identifier.suffix letters).toList
      = scheme.idPrefix.toList ++ ['-']
        ++ code :: (digits ++ (Identifier.suffix letters).toList) := by
    rw [String.toList_append, written, idText]
    simp
  have taken := takePrefixed?_eq_some_iff.mpr ⟨_, whole, listed,
    admits.takeDigits?_append (Identifier.isDecimalDigit_of_head?_suffix letters)⟩
  simp only [parseId?, taken, Option.bind_eq_bind, Option.bind_some,
    Identifier.letters?_suffix upper, Identifier.number?, ne_eq, admits.nonempty,
    not_false_eq_true, true_and]
  split
  · rfl
  · rfl

end Scheme

end Traceability
