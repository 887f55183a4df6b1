import Mathlib.Data.List.Infix
import Traceability.Proofs.Config.Compile
import Traceability.Proofs.Line.Parts
import Traceability.Run

/-! Identifiers in the names of test functions.
Where numbers are padded, a name writes an identifier with a run of as many digits as are
configured. The reader of names takes these digits off longer runs too, so a name may refer to a
requirement with the identifier of which another one only starts.
-/

namespace Traceability.Definition

open Text

variable {scheme : Scheme} {s part id rest behind : List Char} {code : Char} {run : List Char}

-----------------------------------------------------------------------------------------
-- Identifiers as names write them
-----------------------------------------------------------------------------------------

/-- The prefix, an underscore, the code of a level and a run of digits start a text, and no further
digit stands behind the run. -/
structure Starts (scheme : Scheme) (s : List Char) (code : Char) (run behind : List Char)
    : Prop where
  written : s = scheme.idPrefix.toList ++ '_' :: code :: (run ++ behind)
  level : code ∈ scheme.levelCodes
  decimal : ∀ c ∈ run, isDecimalDigit c = true
  maximal : ∀ c ∈ behind.head?, isDecimalDigit c = false

theorem Starts.front (starts : Starts scheme s code run behind)
    : scheme.idPrefix.toList ++ ['_'] <+: s :=
  ⟨code :: (run ++ behind), by simp [starts.written]⟩

/-- The run is all digits behind the code. -/
theorem Starts.run_eq (starts : Starts scheme s code run behind)
    : run = (s.drop (scheme.idPrefix.toList.length + 2)).takeWhile isDecimalDigit := by
  have after : s.drop (scheme.idPrefix.toList.length + 2) = run ++ behind := by
    rw [starts.written, ← List.drop_drop, List.drop_left]
    rfl
  rw [after, (takeWhile_dropWhile_append starts.decimal starts.maximal).1]

/-- A capital letter stands behind an underscore, at the end of a name or in front of a further
underscore. -/
def LetterAt (letter : Char) (behind : List Char) : Prop :=
  letter.isUpper = true ∧ (behind = ['_', letter] ∨ ['_', letter, '_'] <+: behind)

/-- What an identifier ends with: the letter that stands behind the digits, if there is one. -/
def Lettered (behind letters : List Char) : Prop :=
  (∃ letter, LetterAt letter behind ∧ letters = ['-', letter])
  ∨ (∀ letter, ¬ LetterAt letter behind) ∧ letters = []

/-- The run has as many digits as are configured, and the identifier is what is written. -/
def IsWhole (scheme : Scheme) (code : Char) (run behind id : List Char) : Prop :=
  run.length = scheme.idDigits
  ∧ ∃ letters, Lettered behind letters ∧ id = scheme.idText code run ++ letters

/-- The run has more digits than are configured, and the identifier is cut off its front. -/
def IsCut (scheme : Scheme) (code : Char) (run id : List Char) : Prop :=
  scheme.idDigits < run.length ∧ id = scheme.idText code (run.take scheme.idDigits)

theorem letterSuffix_eq_some_iff {letter : Char}
    : (letterSuffix behind).1 = some letter ↔ LetterAt letter behind := by
  unfold LetterAt
  fun_cases letterSuffix behind with
  | case1 other upper => grind
  | case2 other lower => grind
  | case3 other more upper => grind
  | case4 other more lower => grind
  | case5 other single spaced =>
      refine ⟨nofun, ?_⟩
      rintro ⟨-, rfl | ⟨more, rfl⟩⟩
      · exact absurd rfl (single letter)
      · exact absurd rfl (spaced letter more)

/-- What the reader of names puts behind the digits. -/
theorem lettered_iff {letters : List Char}
    : Lettered behind letters
      ↔ letters = match (letterSuffix behind).1 with
          | none => []
          | some letter => ['-', letter] := by
  unfold Lettered
  simp only [← letterSuffix_eq_some_iff]
  cases (letterSuffix behind).1 <;> simp

-----------------------------------------------------------------------------------------
-- One identifier
-----------------------------------------------------------------------------------------

/-- Padded digits are taken off every run that has enough of them. -/
theorem takeDigits?_eq_some_iff (padded : scheme.zeroPadded = true) {digits after : List Char}
    : scheme.takeDigits? s = some (digits, after)
      ↔ s = digits ++ after
        ∧ digits.length = scheme.idDigits
        ∧ ∀ c ∈ digits, isDecimalDigit c = true := by
  constructor
  · intro taken
    obtain ⟨split, decimal⟩ := Scheme.takeDigits?_spec taken
    rw [Scheme.takeDigits?, if_pos padded] at taken
    dsimp only at taken
    split at taken
    · next enough =>
        cases taken
        exact ⟨split, enough.1, decimal⟩
    · cases taken
  · rintro ⟨rfl, width, decimal⟩
    have all : digits.all isDecimalDigit = true := List.all_eq_true.mpr decimal
    simp only [Scheme.takeDigits?, if_pos padded, ← width, List.take_left, List.drop_left, all,
      and_self, if_true]

/-- No letter stands where the run goes on. -/
theorem lettered_cons_iff {c : Char} (digit : isDecimalDigit c = true) {letters : List Char}
    : Lettered (c :: rest) letters ↔ letters = [] := by
  have none : ∀ letter, ¬ LetterAt letter (c :: rest) := by
    intro letter stands
    have underscore : c = '_' := by
      rcases stands.2 with same | front
      · exact (List.cons.inj same).1
      · exact (List.cons_prefix_cons.mp front).1.symm
    rw [underscore] at digit
    exact absurd digit (by decide +kernel)
  refine ⟨?_, fun nothing => Or.inr ⟨none, nothing⟩⟩
  rintro (⟨letter, stands, -⟩ | ⟨-, nothing⟩)
  · exact absurd stands (none letter)
  · exact nothing

/-- Either way the digits are the front of the run, and a letter is looked for right behind them. -/
theorem isWhole_or_isCut_iff (decimal : ∀ c ∈ run, isDecimalDigit c = true)
    : IsWhole scheme code run behind id ∨ IsCut scheme code run id
      ↔ scheme.idDigits ≤ run.length
        ∧ ∃ letters,
            Lettered (run.drop scheme.idDigits ++ behind) letters
            ∧ id = scheme.idText code (run.take scheme.idDigits) ++ letters := by
  rcases Nat.lt_trichotomy run.length scheme.idDigits with short | exact | long
  · simp only [IsWhole, IsCut]
    omega
  · have front : run.take scheme.idDigits = run := List.take_of_length_le (by omega)
    have all : run.drop scheme.idDigits = [] := List.drop_of_length_le (by omega)
    simp [IsWhole, IsCut, front, all, exact]
  · have more : run.drop scheme.idDigits ≠ [] := by
      intro all
      have := List.drop_eq_nil_iff.mp all
      omega
    obtain ⟨c, others, split⟩ := List.exists_cons_of_ne_nil more
    have digit : isDecimalDigit c = true :=
      decimal c (List.mem_of_mem_drop (split ▸ List.mem_cons_self))
    have other : run.length ≠ scheme.idDigits := by omega
    simp only [IsWhole, IsCut, split, List.cons_append, lettered_cons_iff digit, exists_eq_left,
      List.append_nil, other, false_and, false_or, long, Nat.le_of_lt long]

/-- An identifier is taken at the start of a text exactly if the text starts with one whose run has
enough digits. It is the whole of what is written there unless the run goes on. -/
theorem exists_takeId?_iff (padded : scheme.zeroPadded = true)
    : (∃ rest, takeId? scheme s = some (id, rest))
      ↔ ∃ code run behind,
          Starts scheme s code run behind
          ∧ (IsWhole scheme code run behind id ∨ IsCut scheme code run id) := by
  constructor
  · intro ⟨rest, taken⟩
    obtain ⟨⟨code, digits, after⟩, found, same⟩ := Option.map_eq_some_iff.mp taken
    obtain ⟨own, rfl, level, digitsTaken⟩ := Scheme.takePrefixed?_eq_some_iff.mp found
    obtain ⟨rfl, width, decimal⟩ := (takeDigits?_eq_some_iff padded).mp digitsTaken
    -- The run goes on behind the digits that were taken.
    let more := after.takeWhile isDecimalDigit
    let behind := after.dropWhile isDecimalDigit
    have split : more ++ behind = after := List.takeWhile_append_dropWhile
    have starts : Starts scheme (scheme.idPrefix.toList ++ ['_'] ++ code :: (digits ++ after)) code
        (digits ++ more) behind := {
      written := by simp [split]
      level
      decimal := by
        intro c member
        rcases List.mem_append.mp member with front | later
        · exact decimal c front
        · exact List.mem_takeWhile_imp later
      maximal := by
        intro c first
        have ended := List.head?_dropWhile_not isDecimalDigit after
        rwa [Option.mem_def.mp first] at ended }
    refine ⟨code, digits ++ more, behind, starts, (isWhole_or_isCut_iff starts.decimal).mpr ?_⟩
    rw [← width, List.drop_left, List.take_left, split]
    refine ⟨by simp, _, lettered_iff.mpr rfl, ?_⟩
    exact (Prod.mk.inj same).1.symm
  · rintro ⟨code, run, behind, starts, read⟩
    obtain ⟨enough, letters, lettered, rfl⟩ := (isWhole_or_isCut_iff starts.decimal).mp read
    have digits
        : scheme.takeDigits? (run ++ behind)
          = some (run.take scheme.idDigits, run.drop scheme.idDigits ++ behind) := by
      refine (takeDigits?_eq_some_iff padded).mpr ⟨?_, ?_, ?_⟩
      · rw [← List.append_assoc, List.take_append_drop]
      · exact List.length_take_of_le enough
      · exact fun c member => starts.decimal c (List.mem_of_mem_take member)
    have found := Scheme.takePrefixed?_eq_some_iff.mpr
      ⟨run ++ behind, by simpa using starts.written, starts.level, digits⟩
    rw [takeId?, found, lettered_iff.mp lettered]
    exact ⟨_, rfl⟩

theorem ne_nil_of_takeId? (taken : takeId? scheme s = some (id, rest))
    : s ≠ [] := by
  rintro rfl
  obtain ⟨⟨code, digits, after⟩, found, -⟩ := Option.map_eq_some_iff.mp taken
  have written := (Scheme.takePrefixed?_spec found).1
  simp at written

/-- What is left behind an identifier is an end of the text. -/
theorem suffix_of_takeId? (taken : takeId? scheme s = some (id, rest))
    : rest <:+ s := by
  obtain ⟨⟨code, digits, after⟩, found, same⟩ := Option.map_eq_some_iff.mp taken
  obtain ⟨rfl, -⟩ := Scheme.takePrefixed?_spec found
  obtain rfl : (letterSuffix after).2 = rest := (Prod.mk.inj same).2
  apply (letterSuffix_spec after).1.trans
  exact ((List.suffix_append digits after).trans (List.suffix_cons code _)).trans
    ((List.suffix_cons '_' _).trans (List.suffix_append _ _))

-----------------------------------------------------------------------------------------
-- All identifiers of a name
-----------------------------------------------------------------------------------------

/-- What is read anywhere in a name is taken at the start of what is left of it there. -/
theorem exists_takeId?_of_mem_idsWithin {bound : Nat} (member : id ∈ idsWithin scheme bound s)
    : ∃ part rest, part <:+ s ∧ takeId? scheme part = some (id, rest) := by
  induction bound, s using idsWithin.induct scheme with
  | case1 s =>
      rw [idsWithin] at member
      cases member
  | case2 bound =>
      rw [idsWithin] at member
      · cases member
      · assumption
  | case3 bound c s first rest taken ih =>
      rw [idsWithin, taken] at member
      rcases List.mem_cons.mp member with rfl | later
      · exact ⟨c :: s, rest, List.suffix_rfl, taken⟩
      · obtain ⟨part, behind, inside, own⟩ := ih later
        exact ⟨part, behind, inside.trans (suffix_of_takeId? taken), own⟩
  | case4 bound c s none ih =>
      rw [idsWithin, none] at member
      obtain ⟨part, behind, inside, own⟩ := ih member
      exact ⟨part, behind, inside.trans (List.suffix_cons c s), own⟩

/-- The first identifier that can be taken is the first that is read. Witness: the reader passes
only characters where nothing can be taken. -/
theorem exists_idsWithin_eq_cons {bound : Nat} (enough : s.length ≤ bound)
    (inside : part <:+ s) (taken : takeId? scheme part = some (id, rest))
    (first
      : ∀ other found behind, other <:+ s → takeId? scheme other = some (found, behind) →
          other <:+ part)
    : ∃ more, idsWithin scheme bound s = id :: more := by
  induction bound, s using idsWithin.induct scheme with
  | case1 s =>
      have empty : s = [] := List.eq_nil_of_length_eq_zero (Nat.le_zero.mp enough)
      exact absurd (List.suffix_nil.mp (empty ▸ inside)) (ne_nil_of_takeId? taken)
  | case2 bound => exact absurd (List.suffix_nil.mp inside) (ne_nil_of_takeId? taken)
  | case3 bound c s found behind here ih =>
      have same : part = c :: s := by
        have front := first (c :: s) found behind List.suffix_rfl here
        exact inside.eq_of_length_le front.length_le
      obtain rfl := same
      rw [here] at taken
      cases taken
      exact ⟨_, by rw [idsWithin, here]⟩
  | case4 bound c s none ih =>
      have later : part <:+ s := by
        rcases List.suffix_cons_iff.mp inside with rfl | later
        · rw [none] at taken
          cases taken
        · exact later
      rw [idsWithin, none]
      exact ih (Nat.le_of_succ_le_succ enough) later (fun other found behind own =>
        first other found behind (own.trans (List.suffix_cons c s)))

/-- A name spells an identifier: somewhere it has the prefix, the code and a run of exactly the
configured number of digits, and the letter of the identifier behind that. -/
def Spells (scheme : Scheme) (name id : List Char) : Prop :=
  ∃ part code run behind,
    part <:+ name ∧ Starts scheme part code run behind ∧ IsWhole scheme code run behind id

/-- If numbers are padded, each identifier that is read from a name is spelled there or is cut off
a run with more digits. So all are spelled if no run of the name has more digits than are
configured, and otherwise the first run that has enough of them is read whether it has more or
not. -/
theorem ids_spelled_or_cut (padded : scheme.zeroPadded = true) (name : List Char)
    : (∀ id ∈ ids scheme name,
        Spells scheme name id
        ∨ ∃ part code run behind,
            part <:+ name ∧ Starts scheme part code run behind ∧ IsCut scheme code run id)
      ∧ ((∀ part code run behind,
            part <:+ name → Starts scheme part code run behind → run.length ≤ scheme.idDigits) →
          ∀ id ∈ ids scheme name, Spells scheme name id)
      ∧ ∀ part code run behind,
          part <:+ name → Starts scheme part code run behind → scheme.idDigits ≤ run.length →
          (∀ other code run behind,
            other <:+ name → Starts scheme other code run behind → scheme.idDigits ≤ run.length →
              other <:+ part) →
          ∃ id more,
            ids scheme name = id :: more
            ∧ (IsWhole scheme code run behind id ∨ IsCut scheme code run id) := by
  have read {id : List Char} (member : id ∈ ids scheme name)
      : ∃ part code run behind,
          part <:+ name ∧ Starts scheme part code run behind
          ∧ (IsWhole scheme code run behind id ∨ IsCut scheme code run id) := by
    obtain ⟨part, rest, inside, taken⟩ := exists_takeId?_of_mem_idsWithin member
    obtain ⟨code, run, behind, starts, own⟩ := (exists_takeId?_iff padded).mp ⟨rest, taken⟩
    exact ⟨part, code, run, behind, inside, starts, own⟩
  refine ⟨?each, ?fitting, ?first⟩
  case each =>
    intro id member
    obtain ⟨part, code, run, behind, inside, starts, whole | cut⟩ := read member
    · exact Or.inl ⟨part, code, run, behind, inside, starts, whole⟩
    · exact Or.inr ⟨part, code, run, behind, inside, starts, cut⟩
  case fitting =>
    intro fit id member
    obtain ⟨part, code, run, behind, inside, starts, whole | cut⟩ := read member
    · exact ⟨part, code, run, behind, inside, starts, whole⟩
    · exact absurd (fit part code run behind inside starts) (Nat.not_le_of_lt cut.1)
  case first =>
    intro part code run behind inside starts enough first
    obtain ⟨id, own⟩ : ∃ id, IsWhole scheme code run behind id ∨ IsCut scheme code run id :=
      ⟨_, (isWhole_or_isCut_iff starts.decimal).mpr ⟨enough, _, lettered_iff.mpr rfl, rfl⟩⟩
    obtain ⟨rest, taken⟩ := (exists_takeId?_iff padded).mpr ⟨code, run, behind, starts, own⟩
    obtain ⟨more, all⟩ := exists_idsWithin_eq_cons (Nat.le_refl _) inside taken
      (fun other found rest here there => by
        obtain ⟨code, run, behind, starts, own⟩ := (exists_takeId?_iff padded).mp ⟨rest, there⟩
        exact first other code run behind here starts
          ((isWhole_or_isCut_iff starts.decimal).mp own).1)
    exact ⟨id, more, all, own⟩

/-- A name with an identifier and its letter, and with one that has no letter. -/
def twoIdsName : List Char := "test_REQ_p00001_A_and_REQ_o00002_Form".toList

theorem ids_spelled_or_cut_twoIdsName
    : Config.defaultScheme.zeroPadded = true
      ∧ ids Config.defaultScheme twoIdsName = ["REQ-p00001-A".toList, "REQ-o00002".toList]
      ∧ ∀ id ∈ ids Config.defaultScheme twoIdsName,
          Spells Config.defaultScheme twoIdsName id := by
  have runs
      : ∀ part ∈ twoIdsName.tails, "REQ_".toList <+: part →
          ((part.drop 5).takeWhile isDecimalDigit).length = 5 := by
    decide +kernel
  refine ⟨rfl, by decide +kernel, ?_⟩
  apply (ids_spelled_or_cut rfl twoIdsName).2.1
  intro part code run behind inside starts
  have five := runs part ((List.mem_tails _ _).mpr inside) starts.front
  exact Nat.le_of_eq (starts.run_eq ▸ five)

-----------------------------------------------------------------------------------------
-- A longer run
-----------------------------------------------------------------------------------------

/-- A test with a name in which the run has one more digit than are configured. -/
def longRunFiles : SourceSet where
  files := [
    ⟨"spec.md", "# REQ-p00001: Login\n*End* *Login*\n"⟩,
    ⟨"test_login.py", "def test_REQ_p000012_login():\n"⟩]

/-- The name spells no identifier, but the test refers to the requirement whose identifier is cut
off the run. -/
theorem exists_cut_longRunFiles
    : let name := "test_REQ_p000012_login".toList
      let graph := Graph.ofSources Config.defaultScheme longRunFiles
      ({} : Config).compile = .ok Config.defaultScheme
      ∧ Config.defaultScheme.zeroPadded = true
      ∧ namesTest name = true
      ∧ ids Config.defaultScheme name = ["REQ-p00001".toList]
      ∧ (∀ id, ¬ Spells Config.defaultScheme name id)
      ∧ ∃ edge ∈ graph.edges.toList,
          edge.kind = .validates ∧ edge.source = "test:test_login.py:1"
          ∧ edge.target = "REQ-p00001" := by
  have runs
      : ∀ part ∈ "test_REQ_p000012_login".toList.tails, "REQ_".toList <+: part →
          ((part.drop 5).takeWhile isDecimalDigit).length = 6 := by
    decide +kernel
  refine ⟨Config.compile_default, rfl, by decide +kernel, by decide +kernel, ?_,
    by decide +kernel⟩
  rintro id ⟨part, code, run, behind, inside, starts, whole⟩
  have six := runs part ((List.mem_tails _ _).mpr inside) starts.front
  have width : run.length = 6 := starts.run_eq ▸ six
  exact absurd (whole.1.symm.trans width) (by decide)

end Traceability.Definition
