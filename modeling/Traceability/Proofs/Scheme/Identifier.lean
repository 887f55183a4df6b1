import Mathlib
import Traceability.Graph.Node
import Traceability.Line.Heading
import Traceability.Proofs.Text.Search

/-! The form of identifiers.
An identifier of a requirement consists of the prefix, a code and digits, and that of a journey
ends with a digit too. So neither is the identifier of an assertion, which ends with a letter.
-/

namespace Traceability

open Text

-----------------------------------------------------------------------------------------
-- Identifiers of assertions
-----------------------------------------------------------------------------------------

theorem toList_assertionId (requirement : String) (letter : Char)
    : (assertionId requirement letter.toString).toList = requirement.toList ++ ['-', letter] := by
  simp [assertionId, String.toList_append, Char.toString]

theorem assertionId_injective (requirement : String)
    : Function.Injective (assertionId requirement) :=
  fun _ _ same => (String.append_right_inj _).mp same

/-- The identifier of an assertion tells its requirement and its letter. -/
theorem assertionId_inj {r s : String} {a b : Char}
    : assertionId r a.toString = assertionId s b.toString ↔ r = s ∧ a = b := by
  rw [← String.toList_inj, toList_assertionId, toList_assertionId, ← String.toList_inj]
  refine ⟨fun same => ?_, fun ⟨same, letter⟩ => by rw [same, letter]⟩
  obtain ⟨front, last⟩ := List.append_inj' same rfl
  exact ⟨front, by simpa using last⟩

/-- A capital letter is no digit. -/
theorem isDecimalDigit_of_isUpper {c : Char} (upper : c.isUpper = true)
    : isDecimalDigit c = false := by
  simp only [Char.isUpper, decide_eq_true_eq] at upper
  have above : 65 ≤ c.toNat := upper.1
  have below : c.toNat ≤ 90 := upper.2
  rw [isDecimalDigit, if_pos (by omega)]
  simp only [Char.isDigit, Bool.and_eq_false_iff, decide_eq_false_iff_not]
  exact Or.inr (fun small => absurd (show c.toNat ≤ 57 from small) (by omega))

theorem isDecimalDigit_hyphen : isDecimalDigit '-' = false := by
  decide

/-- The last character is a digit. -/
def EndsInDigit (id : String) : Prop :=
  ∃ digit, id.toList.getLast? = some digit ∧ isDecimalDigit digit = true

theorem not_endsInDigit_assertionId (requirement : String) {letter : Char}
    (upper : letter.isUpper = true)
    : ¬ EndsInDigit (assertionId requirement letter.toString) := by
  intro ⟨digit, last, isDigit⟩
  rw [toList_assertionId] at last
  obtain rfl : letter = digit := by simpa using last
  exact Bool.false_ne_true ((isDecimalDigit_of_isUpper upper).symm.trans isDigit)

/-- What ends in digits ends in a digit. -/
theorem endsInDigit_of_suffix {id : String} {digits : List Char} (suffix : digits <:+ id.toList)
    (nonempty : digits ≠ []) (areDigits : ∀ c ∈ digits, isDecimalDigit c = true)
    : EndsInDigit id := by
  obtain ⟨front, written⟩ := suffix
  refine ⟨digits.getLast nonempty, ?_, areDigits _ (List.getLast_mem nonempty)⟩
  rw [← written, List.getLast?_append_of_ne_nil _ nonempty, List.getLast?_eq_some_getLast nonempty]

/-- Every letter takes two characters at the end of an identifier. -/
theorem Identifier.length_of_letters? {s letters : List Char} (read : letters? s = some letters)
    : s.length = 2 * letters.length := by
  fun_induction letters? s generalizing letters with
  | case1 => simp [← Option.some.inj read]
  | case2 c rest upper ih =>
      obtain ⟨more, found, rfl⟩ := Option.map_eq_some_iff.mp read
      have length := ih found
      simp only [List.length_cons]
      omega
  | case3 c rest lower => exact absurd read (by simp)
  | case4 => exact absurd read (by simp)

namespace Scheme

variable {scheme : Scheme}

/-- A text with the form of a requirement identifier, whatever its code and however many digits
it has. -/
def IsId (scheme : Scheme) (id : String) : Prop :=
  ∃ code digits, id.toList = scheme.idText code digits ∧ ∀ c ∈ digits, isDecimalDigit c = true

/-- No requirement identifier is that of an assertion of another requirement. -/
theorem not_isId_assertionId {requirement : String} (isId : scheme.IsId requirement)
    (letter : Char)
    : ¬ scheme.IsId (assertionId requirement letter.toString) := by
  intro ⟨other, more, written, areDigits⟩
  obtain ⟨code, digits, own, -⟩ := isId
  rw [toList_assertionId, own, idText, idText, List.append_assoc, List.append_cancel_left_eq,
    List.cons_append, List.cons_append, List.cons.injEq, List.cons.injEq] at written
  obtain ⟨-, -, same⟩ := written
  have hyphen : '-' ∈ more := by
    rw [← same]
    simp
  exact Bool.false_ne_true (isDecimalDigit_hyphen.symm.trans (areDigits _ hyphen))

-----------------------------------------------------------------------------------------
-- What the readers of identifiers take
-----------------------------------------------------------------------------------------

theorem takeDigits?_spec {s digits rest : List Char}
    (taken : scheme.takeDigits? s = some (digits, rest))
    : s = digits ++ rest ∧ ∀ c ∈ digits, isDecimalDigit c = true := by
  rw [takeDigits?] at taken
  split at taken
  · dsimp only at taken
    split at taken
    · next checked =>
        obtain ⟨rfl, rfl⟩ := Prod.mk.inj (Option.some.inj taken)
        exact ⟨(List.take_append_drop _ _).symm, List.all_eq_true.mp checked.2⟩
    · exact absurd taken (by simp)
  · split at taken
    · exact absurd taken (by simp)
    · obtain ⟨rfl, rfl⟩ := Prod.mk.inj (Option.some.inj taken)
      exact ⟨List.takeWhile_append_dropWhile.symm, fun c member => List.mem_takeWhile_imp member⟩

/-- A code and digits are taken exactly after the prefix and the separator, if the code is that
of a level. -/
theorem takePrefixed?_eq_some_iff {separator code : Char} {s digits rest : List Char}
    : scheme.takePrefixed? separator s = some (code, digits, rest)
      ↔ ∃ after,
          s = scheme.idPrefix.toList ++ [separator] ++ code :: after
          ∧ code ∈ scheme.levelCodes
          ∧ scheme.takeDigits? after = some (digits, rest) := by
  constructor
  · intro taken
    obtain ⟨front, stripped, coded⟩ := Option.bind_eq_some_iff.mp taken
    cases front with
    | nil => cases coded
    | cons first after =>
        rw [takeCode?] at coded
        split at coded
        · next listed =>
            obtain ⟨⟨own, behind⟩, found, same⟩ := Option.map_eq_some_iff.mp coded
            cases same
            exact ⟨after, strip?_eq_some_iff.mp stripped, List.contains_iff_mem.mp listed, found⟩
        · cases coded
  · rintro ⟨after, rfl, listed, found⟩
    have known : scheme.levelCodes.contains code = true := List.contains_iff_mem.mpr listed
    simp only [takePrefixed?, strip?_append, Option.bind_some, takeCode?, known, if_pos, found,
      Option.map_some]

theorem takePrefixed?_spec {separator code : Char} {s digits rest : List Char}
    (taken : scheme.takePrefixed? separator s = some (code, digits, rest))
    : s = scheme.idPrefix.toList ++ separator :: code :: (digits ++ rest)
      ∧ ∀ c ∈ digits, isDecimalDigit c = true := by
  obtain ⟨after, rfl, -, found⟩ := takePrefixed?_eq_some_iff.mp taken
  obtain ⟨rfl, areDigits⟩ := takeDigits?_spec found
  exact ⟨by simp, areDigits⟩

theorem isId_of_takeId? {s id rest : List Char} (taken : scheme.takeId? s = some (id, rest))
    : scheme.IsId (String.ofList id) := by
  obtain ⟨⟨code, digits, behind⟩, found, same⟩ := Option.map_eq_some_iff.mp taken
  obtain ⟨rfl, rfl⟩ := Prod.mk.inj same
  exact ⟨code, digits, String.toList_ofList, (takePrefixed?_spec found).2⟩

theorem endsInDigit_of_takeJourneyId? {s id rest : List Char}
    (taken : scheme.takeJourneyId? s = some (id, rest))
    : EndsInDigit (String.ofList id) := by
  rw [takeJourneyId?] at taken
  split at taken
  · exact absurd taken (by simp)
  · dsimp only at taken
    split at taken
    · split at taken
      · exact absurd taken (by simp)
      · next digits nonempty =>
          obtain ⟨rfl, -⟩ := Prod.mk.inj (Option.some.inj taken)
          refine endsInDigit_of_suffix ?_ nonempty (fun c member => List.mem_takeWhile_imp member)
          rw [String.toList_ofList]
          exact (List.suffix_cons _ _).trans (List.suffix_append _ _)
    · exact absurd taken (by simp)

/-- What is left of an identifier without its letters is an identifier. -/
theorem isId_of_parseId? {id : String} {parts : Identifier}
    (parsed : scheme.parseId? id = some parts)
    : scheme.IsId
        (String.ofList (id.toList.take (id.length - 2 * parts.letters.length))) := by
  obtain ⟨⟨code, digits, rest⟩, taken, lettered⟩ := Option.bind_eq_some_iff.mp parsed
  obtain ⟨letters, read, numbered⟩ := Option.bind_eq_some_iff.mp lettered
  obtain ⟨number, -, same⟩ := Option.bind_eq_some_iff.mp numbered
  obtain rfl := Option.some.inj same
  obtain ⟨written, areDigits⟩ := takePrefixed?_spec taken
  refine ⟨code, digits, ?_, areDigits⟩
  have base : id.toList = scheme.idText code digits ++ rest := by
    rw [written, idText]
    simp
  have length : id.length - 2 * letters.length = (scheme.idText code digits).length := by
    rw [← String.length_toList, base, List.length_append, Identifier.length_of_letters? read]
    omega
  rw [String.toList_ofList, length, base, List.take_left]

end Scheme

namespace Heading

theorem ofParts?_spec {takeId? : List Char → Option (List Char × List Char)} {text : String}
    {heading : Heading} (headed : ofParts? takeId? text = some heading)
    : ∃ s id rest, takeId? s = some (id, rest) ∧ heading.id = String.ofList id := by
  obtain ⟨⟨id, rest⟩, parts, titled⟩ := Option.bind_eq_some_iff.mp headed
  obtain ⟨title, -, same⟩ := Option.bind_eq_some_iff.mp titled
  obtain ⟨s, -, read⟩ := Option.bind_eq_some_iff.mp parts
  obtain ⟨⟨own, behind⟩, taken, cut⟩ := Option.bind_eq_some_iff.mp read
  obtain ⟨_, -, whole⟩ := Option.bind_eq_some_iff.mp cut
  obtain ⟨rfl, -⟩ := Prod.mk.inj (Option.some.inj whole)
  exact ⟨s, own, behind, taken, (congrArg Heading.id (Option.some.inj same)).symm⟩

variable {scheme : Scheme} {text : String} {heading : Heading}

theorem isId_of_requirement? (headed : requirement? scheme text = some heading)
    : scheme.IsId heading.id := by
  obtain ⟨s, id, rest, taken, same⟩ := ofParts?_spec headed
  exact same ▸ Scheme.isId_of_takeId? taken

theorem endsInDigit_of_journey? (headed : journey? scheme text = some heading)
    : EndsInDigit heading.id := by
  obtain ⟨s, id, rest, taken, same⟩ := ofParts?_spec headed
  exact same ▸ Scheme.endsInDigit_of_takeJourneyId? taken

end Heading

end Traceability
