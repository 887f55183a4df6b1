import Traceability.Proofs.Graph.Mentions
import Traceability.Proofs.Scheme.Spelling

/-! What references with several letters expand to.
Such a reference becomes an edge for each letter, to the bare identifier in front of the letters.
A letter takes two bytes at the end of an identifier, so counting bytes finds where they begin.
-/

namespace Traceability

-----------------------------------------------------------------------------------------
-- Identifiers in front of letters
-----------------------------------------------------------------------------------------

namespace Identifier

theorem suffix_cons (letter : Char) (rest : List Char)
    : suffix (letter :: rest) = "-" ++ letter.toString ++ suffix rest := by
  rw [← String.toList_inj]
  simp [suffix, String.toList_append, Char.toString]

theorem append_suffix_singleton (base : String) (letter : Char)
    : base ++ suffix [letter] = assertionId base letter.toString := by
  rw [← String.toList_inj, toList_assertionId]
  simp [suffix, String.toList_append]

theorem length_suffix (letters : List Char) : (suffix letters).length = 2 * letters.length := by
  induction letters with
  | nil => rfl
  | cons letter rest ih =>
      have single : letter.toString.length = 1 := String.length_singleton
      have hyphen : ("-" : String).length = 1 := rfl
      rw [suffix_cons, String.length_append, String.length_append, ih, single, hyphen,
        List.length_cons]
      omega

/-- A hyphen and a capital letter are a byte each. -/
theorem utf8ByteSize_suffix {letters : List Char}
    (capital : ∀ letter ∈ letters, letter.isUpper = true)
    : (suffix letters).utf8ByteSize = 2 * letters.length := by
  induction letters with
  | nil => rfl
  | cons letter rest ih =>
      obtain ⟨upper, others⟩ := List.forall_mem_cons.mp capital
      simp only [Char.isUpper, decide_eq_true_eq] at upper
      have single : letter.toString.utf8ByteSize = 1 := by
        rw [Char.toString, String.utf8ByteSize_singleton, Char.utf8Size_eq_one_iff]
        exact UInt32.le_trans upper.2 (by decide)
      have hyphen : ("-" : String).utf8ByteSize = 1 := rfl
      rw [suffix_cons, String.utf8ByteSize_append, String.utf8ByteSize_append, ih others, single,
        hyphen, List.length_cons]
      omega

/-- What stands in front of the letters of a target: the bare identifier with the same code and
number, which is left when two bytes are cut off for each letter. -/
structure Heads (scheme : Scheme) (target base : String) (parts : Identifier) : Prop where
  written : target = base ++ suffix parts.letters
  bare : scheme.parseId? base = some { parts with letters := [] }
  inRange : 2 * parts.letters.length ≤ target.utf8ByteSize
  boundary
    : (⟨target.utf8ByteSize - 2 * parts.letters.length⟩ : String.Pos.Raw).IsValid target
  cut : base.utf8ByteSize = target.utf8ByteSize - 2 * parts.letters.length

end Identifier

namespace Scheme

variable {scheme : Scheme}

/-- An identifier with letters is read exactly if capital letters stand behind a bare one. -/
theorem parseId?_eq_some_iff_bare (positive : scheme.idDigits ≠ 0) {id : String}
    {parts : Identifier}
    : scheme.parseId? id = some parts
      ↔ ∃ base,
          id = base ++ Identifier.suffix parts.letters
          ∧ scheme.parseId? base = some { parts with letters := [] }
          ∧ ∀ letter ∈ parts.letters, letter.isUpper = true := by
  have none (id : String) : id ++ Identifier.suffix [] = id := by
    simp [Identifier.suffix]
  simp only [parseId?_eq_some_iff positive]
  constructor
  · rintro ⟨⟨digits, written, numbers⟩, listed, capital⟩
    exact ⟨_, written, ⟨⟨digits, (none _).symm, numbers⟩, listed, by simp⟩, capital⟩
  · rintro ⟨base, rfl, ⟨⟨digits, written, numbers⟩, listed, -⟩, capital⟩
    exact ⟨⟨digits, by rw [written, none], numbers⟩, listed, capital⟩

/-- Counting bytes finds the identifier in front of the letters. -/
theorem exists_heads (positive : scheme.idDigits ≠ 0) {target : String} {parts : Identifier}
    (parsed : scheme.parseId? target = some parts)
    : ∃ base, Identifier.Heads scheme target base parts := by
  obtain ⟨base, written, bare, capital⟩ := (parseId?_eq_some_iff_bare positive).mp parsed
  have bytes : target.utf8ByteSize = base.utf8ByteSize + 2 * parts.letters.length := by
    rw [written, String.utf8ByteSize_append, Identifier.utf8ByteSize_suffix capital]
  have cut : base.utf8ByteSize = target.utf8ByteSize - 2 * parts.letters.length := by omega
  refine ⟨base, written, bare, by omega, ?_, cut⟩
  rw [String.Pos.Raw.isValid_iff_exists_append, ← cut]
  exact ⟨base, Identifier.suffix parts.letters, written, rfl⟩

/-- One letter of an identifier with letters makes an identifier with that letter. -/
theorem parseId?_assertionId (positive : scheme.idDigits ≠ 0) {target base : String}
    {parts : Identifier} (parsed : scheme.parseId? target = some parts)
    (written : target = base ++ Identifier.suffix parts.letters) {letter : Char}
    (named : letter ∈ parts.letters)
    : scheme.parseId? (assertionId base letter.toString)
      = some { parts with letters := [letter] } := by
  obtain ⟨own, same, bare, capital⟩ := (parseId?_eq_some_iff_bare positive).mp parsed
  obtain rfl : base = own := (String.append_left_inj _).mp (written.symm.trans same)
  refine (parseId?_eq_some_iff_bare positive).mpr ⟨base, ?_, bare, ?_⟩
  · exact (Identifier.append_suffix_singleton base letter).symm
  · exact List.forall_mem_singleton.mpr (capital letter named)

end Scheme

-----------------------------------------------------------------------------------------
-- References that name several letters
-----------------------------------------------------------------------------------------

namespace PendingReference

/-- The target of a reference to requirements and their assertions names several letters. -/
structure NamesSeveral (scheme : Scheme) (reference : PendingReference) (parts : Identifier)
    : Prop where
  kind : reference.kind ≠ .addresses
  parsed : scheme.parseId? reference.target = some parts
  several : 2 ≤ parts.letters.length

variable {scheme : Scheme} {reference : PendingReference} {parts : Identifier}

theorem NamesSeveral.letters_eq (names : reference.NamesSeveral scheme parts)
    : reference.letters scheme = parts.letters := by
  rw [letters, if_neg names.kind, names.parsed]
  rfl

theorem NamesSeveral.not_few (names : reference.NamesSeveral scheme parts)
    : ¬ (reference.letters scheme).length ≤ 1 := by
  rw [names.letters_eq]
  exact Nat.not_le_of_lt names.several

/-- What is left of a target without its letters stands in front of them. -/
theorem NamesSeveral.base_eq (names : reference.NamesSeveral scheme parts) {base : String}
    (written : reference.target = base ++ Identifier.suffix parts.letters)
    : reference.base scheme = base := by
  have length
      : reference.target.length - 2 * (reference.letters scheme).length = base.toList.length := by
    rw [names.letters_eq, written, String.length_append, Identifier.length_suffix,
      Nat.add_sub_cancel, String.length_toList]
  simp only [PendingReference.base, if_neg names.not_few, length]
  rw [written, String.toList_append, List.take_left, String.ofList_toList]

/-- A reference with several letters mentions what stands in front of them, with each letter. -/
theorem NamesSeveral.mentions_eq (names : reference.NamesSeveral scheme parts) {base : String}
    (written : reference.target = base ++ Identifier.suffix parts.letters)
    : reference.mentions scheme
      = parts.letters.map (fun letter => (base, [letter.toString])) := by
  refine (if_neg names.not_few).trans ?_
  rw [names.letters_eq, names.base_eq written]

/-- Any other reference mentions its target. -/
theorem mentions_of_not_namesSeveral (few : ∀ parts, ¬ reference.NamesSeveral scheme parts)
    : reference.mentions scheme = [(reference.target, [])] := by
  refine if_pos ?_
  rw [letters]
  split
  · exact Nat.zero_le 1
  · next kind =>
      cases parsed : scheme.parseId? reference.target with
      | none => exact Nat.zero_le 1
      | some parts => exact Nat.le_of_lt_succ (Nat.lt_of_not_le (fun several =>
          few parts ⟨kind, parsed, several⟩))

/-- A reference becomes an edge for each letter, to what stands in front of the letters, if its
target names several, and else one edge to its target. -/
theorem edges_of_parts (positive : scheme.idDigits ≠ 0) (reference : PendingReference)
    : (∀ parts, reference.NamesSeveral scheme parts →
        ∃ base,
          Identifier.Heads scheme reference.target base parts
          ∧ reference.edges scheme
            = parts.letters.map (fun letter =>
                ⟨reference.source, base, reference.kind, [letter.toString], reference.line⟩))
      ∧ ((∀ parts, ¬ reference.NamesSeveral scheme parts) →
          reference.edges scheme
          = [⟨reference.source, reference.target, reference.kind, [], reference.line⟩]) := by
  constructor
  · intro parts names
    obtain ⟨base, heads⟩ := Scheme.exists_heads positive names.parsed
    refine ⟨base, heads, ?_⟩
    rw [edges_eq, names.mentions_eq heads.written, List.map_map]
    rfl
  · intro few
    rw [edges_eq, mentions_of_not_namesSeveral few]
    rfl

end PendingReference

end Traceability
