import Traceability.Proofs.Config.Compile
import Traceability.Proofs.Scheme.Reading

/-! How identifiers are spelled.
Reading takes exactly what is spelled as an identifier, and a text is spelled so in one way only.
Writing spells every number, but padded numbers that need more digits than are configured spell
no identifier.
-/

namespace Traceability

open Text

-----------------------------------------------------------------------------------------
-- Digits
-----------------------------------------------------------------------------------------

namespace Identifier

/-- The value of an ASCII digit. -/
def digitValue (c : Char) : Nat :=
  c.toNat - '0'.toNat

theorem digitValue_lt {c : Char} (digit : c.isDigit = true) : digitValue c < 10 := by
  simp only [Char.isDigit, Bool.and_eq_true, decide_eq_true_eq] at digit
  have most : c.toNat ≤ 57 := digit.2
  exact Nat.lt_succ_of_le (Nat.sub_le_of_le_add most)

/-- A digit is told by its value. -/
theorem ofNat_digitValue {c : Char} (digit : c.isDigit = true)
    : Char.ofNat (digitValue c + '0'.toNat) = c := by
  simp only [Char.isDigit, Bool.and_eq_true, decide_eq_true_eq] at digit
  have least : '0'.toNat ≤ c.toNat := digit.1
  rw [digitValue, Nat.sub_add_cancel least, Char.ofNat_toNat]

/-- The number that digits write has them as its digits, the last one first. -/
theorem ofDigitChars_eq_ofDigits (digits : List Char)
    : Nat.ofDigitChars 10 digits 0 = Nat.ofDigits 10 (digits.map digitValue).reverse := by
  induction digits using List.reverseRecOn with
  | nil => rfl
  | append_singleton digits c ih =>
      rw [Nat.ofDigitChars_append, ih, List.map_append, List.reverse_append, Nat.ofDigitChars_cons,
        Nat.ofDigitChars_nil]
      exact Nat.add_comm _ _

theorem lt_of_mem_values {digits : List Char} (ascii : ∀ c ∈ digits, c.isDigit = true)
    : ∀ value ∈ (digits.map digitValue).reverse, value < 10 := by
  intro value member
  obtain ⟨c, own, rfl⟩ := List.mem_map.mp (List.mem_reverse.mp member)
  exact digitValue_lt (ascii c own)

/-- Fewer digits write smaller numbers. -/
theorem ofDigitChars_lt {digits : List Char} (ascii : ∀ c ∈ digits, c.isDigit = true)
    : Nat.ofDigitChars 10 digits 0 < 10 ^ digits.length := by
  have small := Nat.ofDigits_lt_base_pow_length (by decide) (lt_of_mem_values ascii)
  rwa [← ofDigitChars_eq_ofDigits, List.length_reverse, List.length_map] at small

/-- Equally many digits write a number in one way only. -/
theorem digits_eq_of_value_eq {digits others : List Char}
    (ascii : ∀ c ∈ digits, c.isDigit = true) (asciiOthers : ∀ c ∈ others, c.isDigit = true)
    (length : digits.length = others.length)
    (value : Nat.ofDigitChars 10 digits 0 = Nat.ofDigitChars 10 others 0)
    : digits = others := by
  rw [ofDigitChars_eq_ofDigits, ofDigitChars_eq_ofDigits] at value
  have reversed := Nat.ofDigits_inj_of_len_eq (by decide) (by simpa using length)
    (lt_of_mem_values ascii) (lt_of_mem_values asciiOthers) value
  have told {digits : List Char} (ascii : ∀ c ∈ digits, c.isDigit = true)
      : (digits.map digitValue).map (fun value => Char.ofNat (value + '0'.toNat)) = digits := by
    rw [List.map_map]
    exact (List.map_congr_left (fun c member => ofNat_digitValue (ascii c member))).trans
      (List.map_id' digits)
  rw [← told ascii, List.reverse_injective reversed, told asciiOthers]

-----------------------------------------------------------------------------------------
-- Letters
-----------------------------------------------------------------------------------------

/-- The letters of a reference are read exactly where they are spelled. -/
theorem letters?_eq_some_iff {s letters : List Char}
    : letters? s = some letters
      ↔ s = (suffix letters).toList ∧ ∀ letter ∈ letters, letter.isUpper = true := by
  constructor
  · intro read
    rw [suffix, String.toList_ofList]
    fun_induction letters? s generalizing letters with
    | case1 => simp [← Option.some.inj read]
    | case2 c rest upper ih =>
        obtain ⟨more, found, rfl⟩ := Option.map_eq_some_iff.mp read
        obtain ⟨rfl, capital⟩ := ih found
        exact ⟨rfl, List.forall_mem_cons.mpr ⟨upper, capital⟩⟩
    | case3 c rest lower => exact absurd read (by simp)
    | case4 => exact absurd read (by simp)
  · rintro ⟨rfl, capital⟩
    exact letters?_suffix capital

end Identifier

-----------------------------------------------------------------------------------------
-- Spelling
-----------------------------------------------------------------------------------------

namespace Scheme

variable {scheme : Scheme}

/-- Digits of an identifier that write a number: ASCII digits, as many as are configured if
numbers are padded and otherwise at least one, and a number of a machine word. -/
structure Numbers (scheme : Scheme) (digits : List Char) (number : Nat) : Prop where
  ascii : ∀ c ∈ digits, c.isDigit = true
  width : if scheme.zeroPadded then digits.length = scheme.idDigits else digits ≠ []
  value : Nat.ofDigitChars 10 digits 0 = number
  bounded : number < 2 ^ 64

/-- An identifier as text: the prefix, a hyphen, the code of a level, digits that write the
number, and capital letters, each after a hyphen. -/
structure Spells (scheme : Scheme) (id : String) (parts : Identifier) : Prop where
  written
    : ∃ digits,
        id
          = scheme.idPrefix ++ "-" ++ parts.levelCode.toString ++ String.ofList digits
            ++ Identifier.suffix parts.letters
        ∧ scheme.Numbers digits parts.number
  code : parts.levelCode ∈ scheme.levelCodes
  capital : ∀ letter ∈ parts.letters, letter.isUpper = true

theorem Numbers.admits {digits : List Char} {number : Nat}
    (numbers : scheme.Numbers digits number) (positive : scheme.idDigits ≠ 0)
    : scheme.Admits digits where
  decimal c member := isDecimalDigit_of_isDigit (numbers.ascii c member)
  nonempty := by
    have width := numbers.width
    split at width
    · exact List.ne_nil_of_length_pos (width ▸ Nat.pos_of_ne_zero positive)
    · exact width
  width padded := by
    have width := numbers.width
    rwa [if_pos padded] at width

/-- Admitted digits write a number exactly if they are ASCII and the number is not too large. -/
theorem Admits.numbers_iff {digits : List Char} (admits : scheme.Admits digits) {number : Nat}
    : scheme.Numbers digits number ↔ Identifier.number? digits = some number := by
  have bound : Identifier.maxNumber + 1 = 2 ^ 64 := rfl
  simp only [Identifier.number?, ne_eq, admits.nonempty, not_false_eq_true, true_and,
    List.all_eq_true, Option.ite_none_right_eq_some, Option.some.injEq]
  constructor
  · intro numbers
    have bounded := numbers.bounded
    exact ⟨⟨numbers.ascii, by rw [numbers.value]; omega⟩, numbers.value⟩
  · rintro ⟨⟨ascii, bounded⟩, rfl⟩
    refine ⟨ascii, ?_, rfl, by omega⟩
    split
    · next padded => exact admits.width padded
    · exact admits.nonempty

/-- The text of an identifier with letters. -/
theorem toList_spelled (scheme : Scheme) (code : Char) (digits letters : List Char)
    : (scheme.idPrefix ++ "-" ++ code.toString ++ String.ofList digits
          ++ Identifier.suffix letters).toList
      = scheme.idPrefix.toList ++ ['-']
        ++ code :: (digits ++ (Identifier.suffix letters).toList) := by
  simp [String.toList_append, Char.toString]

/-- An identifier is read from a text exactly if the text spells it. -/
theorem parseId?_eq_some_iff (positive : scheme.idDigits ≠ 0) {id : String} {parts : Identifier}
    : scheme.parseId? id = some parts ↔ scheme.Spells id parts := by
  constructor
  · intro parsed
    obtain ⟨⟨code, digits, rest⟩, taken, lettered⟩ := Option.bind_eq_some_iff.mp parsed
    obtain ⟨letters, read, numbered⟩ := Option.bind_eq_some_iff.mp lettered
    obtain ⟨number, value, same⟩ := Option.bind_eq_some_iff.mp numbered
    obtain rfl := Option.some.inj same
    obtain ⟨after, whole, listed, digitsTaken⟩ := takePrefixed?_eq_some_iff.mp taken
    obtain ⟨rfl, -⟩ := takeDigits?_spec digitsTaken
    obtain ⟨rfl, capital⟩ := Identifier.letters?_eq_some_iff.mp read
    have admits := admits_of_takeDigits? positive digitsTaken
    refine ⟨⟨digits, ?_, admits.numbers_iff.mpr value⟩, listed, capital⟩
    rw [← String.toList_inj, toList_spelled]
    exact whole
  · rintro ⟨⟨digits, written, numbers⟩, listed, capital⟩
    have admits := numbers.admits positive
    have whole : id.toList = scheme.idPrefix.toList ++ ['-'] ++ parts.levelCode
        :: (digits ++ (Identifier.suffix parts.letters).toList) := by
      rw [written, toList_spelled]
    have taken := takePrefixed?_eq_some_iff.mpr ⟨_, whole, listed,
      admits.takeDigits?_append (Identifier.isDecimalDigit_of_head?_suffix parts.letters)⟩
    simp only [parseId?, taken, Option.bind_eq_bind, Option.bind_some,
      Identifier.letters?_suffix capital, admits.numbers_iff.mp numbers]
    rfl

/-- The parts of a text that is composed of a code, ASCII digits and letters are these. -/
theorem spells_iff {code : Char} {digits letters : List Char}
    (ascii : ∀ c ∈ digits, c.isDigit = true) (capital : ∀ letter ∈ letters, letter.isUpper = true)
    {parts : Identifier}
    : scheme.Spells
          (scheme.idPrefix ++ "-" ++ code.toString ++ String.ofList digits
            ++ Identifier.suffix letters)
          parts
      ↔ parts = ⟨code, Nat.ofDigitChars 10 digits 0, letters⟩
        ∧ code ∈ scheme.levelCodes
        ∧ scheme.Numbers digits (Nat.ofDigitChars 10 digits 0) := by
  constructor
  · rintro ⟨⟨others, written, numbers⟩, listed, capitals⟩
    rw [← String.toList_inj, toList_spelled, toList_spelled, List.append_cancel_left_eq,
      List.cons.injEq] at written
    obtain ⟨codes, tails⟩ := written
    -- Both runs of digits end where the letters begin.
    have run {digits : List Char} (ascii : ∀ c ∈ digits, c.isDigit = true) (letters : List Char) :=
      takeWhile_dropWhile_append (fun c member => isDecimalDigit_of_isDigit (ascii c member))
        (Identifier.isDecimalDigit_of_head?_suffix letters)
    have digitsEq : digits = others := by
      rw [← (run ascii letters).1, tails, (run numbers.ascii parts.letters).1]
    have lettersEq : letters = parts.letters := by
      have rests
          : (Identifier.suffix letters).toList = (Identifier.suffix parts.letters).toList := by
        rw [← (run ascii letters).2, tails, (run numbers.ascii parts.letters).2]
      have read := Identifier.letters?_suffix capital
      rw [rests, Identifier.letters?_suffix capitals] at read
      exact (Option.some.inj read).symm
    subst digitsEq
    rw [numbers.value]
    exact ⟨by rw [codes, lettersEq], codes ▸ listed, numbers⟩
  · rintro ⟨rfl, listed, numbers⟩
    exact ⟨⟨digits, rfl, numbers⟩, listed, capital⟩

-----------------------------------------------------------------------------------------
-- Written identifiers
-----------------------------------------------------------------------------------------

theorem isDigit_of_mem_digitsOf {number : Nat}
    : ∀ c ∈ scheme.digitsOf number, c.isDigit = true := by
  intro c member
  have own (c : Char) (member : c ∈ Nat.toDigits 10 number) : c.isDigit = true :=
    Nat.isDigit_of_mem_toDigits (by decide) (by decide) member
  simp only [digitsOf] at member
  split at member
  · rw [List.leftpad, List.mem_append, List.mem_replicate] at member
    rcases member with ⟨-, rfl⟩ | digit
    · rfl
    · exact own c digit
  · exact own c member

/-- Padding does not change the number. -/
theorem ofDigitChars_digitsOf (scheme : Scheme) (number : Nat)
    : Nat.ofDigitChars 10 (scheme.digitsOf number) 0 = number := by
  simp only [digitsOf]
  split
  · rw [List.leftpad, Nat.ofDigitChars_append, Nat.ofDigitChars_replicate_zero, Nat.mul_zero,
      Nat.ofDigitChars_ten_toDigits]
  · exact Nat.ofDigitChars_ten_toDigits

theorem length_digitsOf (padded : scheme.zeroPadded = true) (number : Nat)
    : (scheme.digitsOf number).length
      = max scheme.idDigits (Nat.toDigits 10 number).length := by
  simp only [digitsOf, padded, if_true, List.length_leftpad]

/-- The digits of a number are those of an identifier unless padded ones are too many. -/
theorem numbers_digitsOf_iff (positive : scheme.idDigits ≠ 0) {number : Nat}
    (bounded : number < 2 ^ 64)
    : scheme.Numbers (scheme.digitsOf number) number
      ↔ scheme.zeroPadded = false ∨ number < 10 ^ scheme.idDigits := by
  have few : (Nat.toDigits 10 number).length ≤ scheme.idDigits ↔ number < 10 ^ scheme.idDigits :=
    Nat.length_toDigits_le_iff (by decide) (Nat.pos_of_ne_zero positive)
  have width
      : (if scheme.zeroPadded then (scheme.digitsOf number).length = scheme.idDigits
          else scheme.digitsOf number ≠ [])
        ↔ scheme.zeroPadded = false ∨ number < 10 ^ scheme.idDigits := by
    cases padded : scheme.zeroPadded with
    | true => simp [length_digitsOf padded, few]
    | false => simp [digitsOf, padded]
  exact ⟨fun numbers => width.mp numbers.width, fun fits =>
    ⟨isDigit_of_mem_digitsOf, width.mpr fits, ofDigitChars_digitsOf scheme number, bounded⟩⟩

theorem formatId_eq (scheme : Scheme) (code : Char) (number : Nat) (letter : Option Char)
    : scheme.formatId code number letter
      = scheme.idPrefix ++ "-" ++ code.toString ++ String.ofList (scheme.digitsOf number)
        ++ Identifier.suffix letter.toList := by
  rw [← String.toList_inj, toList_spelled]
  cases letter <;> simp [formatId, idText, Identifier.suffix]

/-- A written identifier is read back unless its number is too long for its padding. -/
theorem parseId?_formatId (positive : scheme.idDigits ≠ 0) {code : Char}
    (listed : code ∈ scheme.levelCodes) {number : Nat} (bounded : number < 2 ^ 64)
    {letter : Option Char} (capital : ∀ c ∈ letter, c.isUpper = true)
    : scheme.parseId? (scheme.formatId code number letter)
      = if scheme.zeroPadded = false ∨ number < 10 ^ scheme.idDigits then
          some ⟨code, number, letter.toList⟩
        else none := by
  have capitals : ∀ c ∈ letter.toList, c.isUpper = true :=
    fun c member => capital c (Option.mem_toList.mp member)
  refine Option.ext (fun parts => ?_)
  rw [parseId?_eq_some_iff positive, formatId_eq, spells_iff isDigit_of_mem_digitsOf capitals,
    ofDigitChars_digitsOf, numbers_digitsOf_iff positive bounded, Option.ite_none_right_eq_some,
    Option.some.injEq]
  tauto

/-- Padded digits are those of their number. -/
theorem Numbers.eq_digitsOf {digits : List Char} {number : Nat}
    (numbers : scheme.Numbers digits number) (positive : scheme.idDigits ≠ 0)
    (padded : scheme.zeroPadded = true)
    : digits = scheme.digitsOf number := by
  have width : digits.length = scheme.idDigits := (numbers.admits positive).width padded
  have small : number < 10 ^ scheme.idDigits := by
    rw [← numbers.value, ← width]
    exact Identifier.ofDigitChars_lt numbers.ascii
  have own := (numbers_digitsOf_iff positive numbers.bounded).mpr (Or.inr small)
  refine Identifier.digits_eq_of_value_eq numbers.ascii own.ascii ?_ ?_
  · rw [width, (own.admits positive).width padded]
  · rw [numbers.value, own.value]

/-- Reading and writing identifiers are inverse. An identifier is read exactly from the texts that
spell it; what is written is read back as it was, unless padding has too few digits for the
number; and a padded identifier that is read is written back as it was, its letters behind it. -/
theorem parseId?_formatId_inverse {config : Config} {limit : Nat}
    (compiled : config.compileWithin limit = .ok scheme)
    : (∀ id parts, scheme.parseId? id = some parts ↔ scheme.Spells id parts)
      ∧ (∀ code ∈ scheme.levelCodes, ∀ number < 2 ^ 64, ∀ letter : Option Char,
          (∀ c ∈ letter, c.isUpper = true) →
          scheme.parseId? (scheme.formatId code number letter)
          = if scheme.zeroPadded = false ∨ number < 10 ^ scheme.idDigits then
              some ⟨code, number, letter.toList⟩
            else none)
      ∧ (scheme.zeroPadded = true → ∀ id parts, scheme.parseId? id = some parts →
          id = scheme.formatId parts.levelCode parts.number none
            ++ Identifier.suffix parts.letters) := by
  have positive := Config.idDigits_of_compile compiled
  refine ⟨fun _ _ => parseId?_eq_some_iff positive,
    fun code listed number bounded letter capital =>
      parseId?_formatId positive listed bounded capital, ?_⟩
  intro padded id parts parsed
  obtain ⟨digits, written, numbers⟩ := ((parseId?_eq_some_iff positive).mp parsed).written
  rw [written, formatId_eq, numbers.eq_digitsOf positive padded, Option.toList_none]
  simp [Identifier.suffix]

/-- Witness: padding to five digits has a number of five digits read back, and none of six. -/
theorem parseId?_formatId_inverse_default
    : ({} : Config).compile = .ok Config.defaultScheme
      ∧ Config.defaultScheme.Spells "REQ-p00042-A-C" ⟨'p', 42, ['A', 'C']⟩
      ∧ Config.defaultScheme.parseId? (Config.defaultScheme.formatId 'o' 99999 (some 'B'))
        = some ⟨'o', 99999, ['B']⟩
      ∧ Config.defaultScheme.parseId? (Config.defaultScheme.formatId 'o' 100000 none) = none
      ∧ "REQ-p00042-A-C"
        = Config.defaultScheme.formatId 'p' 42 none ++ Identifier.suffix ['A', 'C'] := by
  obtain ⟨spelled, readBack, writtenBack⟩ := parseId?_formatId_inverse Config.compile_default
  have parsed
      : Config.defaultScheme.parseId? "REQ-p00042-A-C" = some ⟨'p', 42, ['A', 'C']⟩ := by
    decide +kernel
  have listed : 'o' ∈ Config.defaultScheme.levelCodes := by decide
  have padded : Config.defaultScheme.zeroPadded = true := rfl
  have width : Config.defaultScheme.idDigits = 5 := rfl
  have five := readBack 'o' listed 99999 (by norm_num) (some 'B') (by simp)
  have six := readBack 'o' listed 100000 (by norm_num) none (by simp)
  rw [padded, width, if_pos (by norm_num)] at five
  rw [padded, width, if_neg (by norm_num)] at six
  have spells := (spelled _ _).mp parsed
  have again := writtenBack padded _ _ parsed
  exact ⟨Config.compile_default, spells, five, six, again⟩

end Scheme

end Traceability
