import Mathlib.Data.List.Nodup
import Mathlib.Tactic.SplitIfs
import Traceability.Config.Compile

/-! What holds of every compiled configuration. -/

namespace Traceability

theorem exists_ok_of_bind {ε α β : Type} {x : Except ε α} {f : α → Except ε β} {b : β}
    (done : x >>= f = .ok b)
    : ∃ a, x = .ok a ∧ f a = .ok b := by
  cases x with
  | error e => exact absurd done (by simp [bind, Except.bind])
  | ok a => exact ⟨a, rfl, done⟩

/-- A refusal yields nothing. -/
theorem ok_ne_throw {ε α : Type} (error : ε) (a : α) : .ok a ≠ (throw error : Except ε α) := by
  intro done
  have refused : Except.ok a = Except.error error := done
  cases refused

theorem ok_ne_throw_bind {ε α β : Type} (error : ε) (f : α → Except ε β) (b : β)
    : .ok b ≠ (throw error >>= f) := by
  intro done
  obtain ⟨a, failed, -⟩ := exists_ok_of_bind done.symm
  exact ok_ne_throw error a failed.symm

namespace Config

open Text

/-- A configuration passes every check, and a scheme takes over its settings. Levels are compiled
on the way, and so is a table of permitted parents if there is one. -/
structure CompilesTo (config : Config) (scheme : Scheme) : Prop where
  prefixes : config.checkPrefixes = .ok ()
  sizes : config.checkSizes = .ok ()
  keywords : config.checkKeywords = .ok ()
  idPrefix : scheme.idPrefix = config.idPrefix
  journeyPrefix : scheme.journeyPrefix = config.journeyPrefix
  idDigits : scheme.idDigits = config.idDigits
  hashLength : scheme.hashLength = config.hashLength
  statuses : scheme.statuses = config.statuses
  implementsKeyword
    : scheme.implementsKeyword = String.ofList (trim config.implementsKeyword.toList)
  validatesKeyword
    : scheme.validatesKeyword = String.ofList (trim config.validatesKeyword.toList)
  levels
    : ∃ levels,
        compileLevels [] config.levels = .ok levels ∧ scheme.levels = sortByRank levels
  allowSameLevel : scheme.allowSameLevel = config.hierarchy.allowSameLevel
  allowedParents : config.hierarchy.allowedParents = none → scheme.allowedParents = none

theorem compilesTo_of_compile {config : Config} {limit : Nat} {scheme : Scheme}
    (compiled : config.compileWithin limit = .ok scheme)
    : config.CompilesTo scheme := by
  unfold compileWithin at compiled
  obtain ⟨_, prefixes, compiled⟩ := exists_ok_of_bind compiled
  obtain ⟨_, sizes, compiled⟩ := exists_ok_of_bind compiled
  obtain ⟨_, keywords, compiled⟩ := exists_ok_of_bind compiled
  obtain ⟨levels, own, compiled⟩ := exists_ok_of_bind compiled
  dsimp only at compiled
  split at compiled
  all_goals
    next written =>
      obtain ⟨table, parents, compiled⟩ := exists_ok_of_bind compiled
      split at compiled
      · exact absurd compiled.symm (ok_ne_throw_bind _ _ _)
      · obtain rfl := Except.ok.inj compiled
        refine ⟨prefixes, sizes, keywords, rfl, rfl, rfl, rfl, rfl, rfl, rfl, ⟨levels, own, rfl⟩,
          rfl, fun unlisted => ?_⟩
        first
          | exact (Except.ok.inj parents).symm
          | exact absurd (written.symm.trans unlisted) (Option.some_ne_none _)

-----------------------------------------------------------------------------------------
-- Sizes
-----------------------------------------------------------------------------------------

theorem sizes_of_checkSizes {config : Config} {done : Unit}
    (checked : config.checkSizes = .ok done)
    : config.idDigits ≠ 0 ∧ 4 ≤ config.hashLength ∧ config.hashLength ≤ 64 := by
  unfold checkSizes at checked
  dsimp only at checked
  split at checked
  · exact absurd checked.symm (ok_ne_throw_bind _ _ _)
  · split at checked
    · exact absurd checked.symm (ok_ne_throw_bind _ _ _)
    · next digits =>
        split at checked
        · next range => exact ⟨digits, range⟩
        · exact absurd checked.symm (ok_ne_throw _ _)

/-- A compiled configuration wants digits in identifiers. -/
theorem idDigits_of_compile {config : Config} {limit : Nat} {scheme : Scheme}
    (compiled : config.compileWithin limit = .ok scheme)
    : scheme.idDigits ≠ 0 := by
  have compiles := compilesTo_of_compile compiled
  rw [compiles.idDigits]
  exact (sizes_of_checkSizes compiles.sizes).1

/-- A compiled configuration stores hashes of a permitted length. -/
theorem hashLength_of_compile {config : Config} {limit : Nat} {scheme : Scheme}
    (compiled : config.compileWithin limit = .ok scheme)
    : 4 ≤ scheme.hashLength ∧ scheme.hashLength ≤ 64 := by
  have compiles := compilesTo_of_compile compiled
  rw [compiles.hashLength]
  exact (sizes_of_checkSizes compiles.sizes).2

-----------------------------------------------------------------------------------------
-- Prefixes and keywords
-----------------------------------------------------------------------------------------

/-- A prefix consists of letters and digits. -/
theorem isAlphanum_of_isValidPrefix {text : String} (valid : isValidPrefix text = true)
    : ∀ c ∈ text.toList, c.isAlphanum = true := by
  unfold isValidPrefix at valid
  split at valid
  · exact absurd valid Bool.false_ne_true
  · next c cs written =>
      rw [written]
      rw [Bool.and_eq_true, List.all_eq_true] at valid
      intro d member
      rcases List.mem_cons.mp member with rfl | later
      · rw [Char.isAlphanum, valid.1, Bool.true_or]
      · exact valid.2 d later

/-- The two prefixes of a compiled configuration consist of letters and digits and differ. -/
theorem prefixes_of_compile {config : Config} {limit : Nat} {scheme : Scheme}
    (compiled : config.compileWithin limit = .ok scheme)
    : (∀ c ∈ scheme.idPrefix.toList, c.isAlphanum = true)
      ∧ (∀ c ∈ scheme.journeyPrefix.toList, c.isAlphanum = true)
      ∧ scheme.idPrefix ≠ scheme.journeyPrefix := by
  have compiles := compilesTo_of_compile compiled
  have checked := compiles.prefixes
  rw [compiles.idPrefix, compiles.journeyPrefix]
  unfold checkPrefixes at checked
  dsimp only at checked
  split at checked
  · next validId =>
      split at checked
      · next validJourney =>
          split at checked
          · exact absurd checked.symm (ok_ne_throw _ _)
          · next distinct =>
              refine ⟨isAlphanum_of_isValidPrefix validId,
                isAlphanum_of_isValidPrefix validJourney, ?_⟩
              intro same
              rw [same] at distinct
              exact distinct (beq_self_eq_true _)
      · exact absurd checked.symm (ok_ne_throw_bind _ _ _)
  · exact absurd checked.symm (ok_ne_throw_bind _ _ _)

/-- A keyword of a configuration is more than blanks. -/
theorem keywords_of_checkKeywords {config : Config} {done : Unit}
    (checked : config.checkKeywords = .ok done)
    : trim config.implementsKeyword.toList ≠ [] ∧ trim config.validatesKeyword.toList ≠ [] := by
  unfold checkKeywords at checked
  dsimp only at checked
  split at checked
  · exact absurd checked.symm (ok_ne_throw_bind _ _ _)
  · next implementing =>
      split at checked
      · exact absurd checked.symm (ok_ne_throw _ _)
      · next validating => exact ⟨implementing, validating⟩

-----------------------------------------------------------------------------------------
-- Levels
-----------------------------------------------------------------------------------------

theorem insertByRank_perm (level : Level) (levels : List Level)
    : (insertByRank level levels).Perm (level :: levels) := by
  induction levels with
  | nil => exact .refl _
  | cons other rest ih =>
      rw [insertByRank]
      split
      · exact (ih.cons other).trans (.swap level other rest)
      · exact .refl _

/-- Sorting levels by rank changes their order only. -/
theorem sortByRank_perm (levels : List Level) : (sortByRank levels).Perm levels := by
  have inserted (sorted : List Level)
      : (levels.foldl (fun sorted level => insertByRank level sorted) sorted).Perm
          (levels ++ sorted) := by
    induction levels generalizing sorted with
    | nil => exact .refl _
    | cons level rest ih =>
        exact (ih _).trans (((insertByRank_perm level sorted).append_left rest).trans
          List.perm_middle)
  exact (inserted []).trans (.of_eq (List.append_nil levels))

/-- A level that is compiled has a name, a code and a rank of its own. -/
theorem apart_of_compileLevel {earlier : List Level} {spec : LevelSpec} {level : Level}
    (compiled : compileLevel earlier spec = .ok level)
    : ∀ other ∈ earlier,
        sameIgnoringCase other.name level.name = false
        ∧ other.code ≠ level.code
        ∧ other.rank ≠ level.rank := by
  unfold compileLevel at compiled
  split at compiled
  · next code _ =>
      split_ifs at compiled with invalid name code rank
      obtain rfl := Except.ok.inj compiled
      intro other member
      refine ⟨Bool.eq_false_iff.mpr (fun same => ?_), fun same => ?_, fun same => ?_⟩
      · exact name (List.any_eq_true.mpr ⟨other, member, same⟩)
      · exact code (List.any_eq_true.mpr ⟨other, member, beq_iff_eq.mpr same⟩)
      · exact rank (List.any_eq_true.mpr ⟨other, member, beq_iff_eq.mpr same⟩)
  · exact absurd compiled (by simp)

/-- Nothing that each level has for itself repeats among compiled levels. Witness: induction along
the specifications; each level is compared with all before it. -/
theorem nodup_map_of_compileLevels {α : Type} {own : Level → α}
    (step
      : ∀ {earlier spec level}, compileLevel earlier spec = .ok level →
          ∀ other ∈ earlier, own other ≠ own level)
    {specs : List LevelSpec} {earlier levels : List Level} (distinct : (earlier.map own).Nodup)
    (compiled : compileLevels earlier specs = .ok levels)
    : (levels.map own).Nodup := by
  induction specs generalizing earlier with
  | nil => exact Except.ok.inj compiled ▸ distinct
  | cons spec rest ih =>
      obtain ⟨level, done, compiled⟩ := exists_ok_of_bind compiled
      refine ih ?_ compiled
      rw [List.map_append, List.map_singleton]
      refine List.nodup_append.mpr ⟨distinct, List.nodup_singleton _, ?_⟩
      intro value member other single
      obtain ⟨before, here, rfl⟩ := List.mem_map.mp member
      rw [List.mem_singleton.mp single]
      exact step done before here

/-- Nothing that each level has for itself repeats in a compiled configuration. -/
theorem nodup_map_of_compile {config : Config} {limit : Nat} {scheme : Scheme}
    (compiled : config.compileWithin limit = .ok scheme) {α : Type} {own : Level → α}
    (step
      : ∀ {earlier spec level}, compileLevel earlier spec = .ok level →
          ∀ other ∈ earlier, own other ≠ own level)
    : (scheme.levels.map own).Nodup := by
  obtain ⟨levels, done, sorted⟩ := (compilesTo_of_compile compiled).levels
  have none : (([] : List Level).map own).Nodup := List.nodup_nil
  rw [sorted, ((sortByRank_perm levels).map own).nodup_iff]
  exact nodup_map_of_compileLevels step none done

section Distinct

variable {config : Config} {limit : Nat} {scheme : Scheme}
  (compiled : config.compileWithin limit = .ok scheme)
include compiled

theorem nodup_rank_of_compile : (scheme.levels.map Level.rank).Nodup :=
  nodup_map_of_compile compiled
    (fun done other member => (apart_of_compileLevel done other member).2.2)

theorem nodup_code_of_compile : (scheme.levels.map Level.code).Nodup :=
  nodup_map_of_compile compiled
    (fun done other member => (apart_of_compileLevel done other member).2.1)

theorem nodup_name_of_compile
    : (scheme.levels.map (fun level => level.name.toList.map Char.toLower)).Nodup :=
  nodup_map_of_compile compiled
    (fun done other member => ne_of_beq_false (apart_of_compileLevel done other member).1)

/-- In a compiled configuration a level is known by its rank. -/
theorem level_eq_of_rank_eq {a b : Level} (memberA : a ∈ scheme.levels)
    (memberB : b ∈ scheme.levels) (same : a.rank = b.rank)
    : a = b :=
  List.inj_on_of_nodup_map (nodup_rank_of_compile compiled) memberA memberB same

/-- In a compiled configuration a level is known by its code. -/
theorem level_eq_of_code_eq {a b : Level} (memberA : a ∈ scheme.levels)
    (memberB : b ∈ scheme.levels) (same : a.code = b.code)
    : a = b :=
  List.inj_on_of_nodup_map (nodup_code_of_compile compiled) memberA memberB same

/-- In a compiled configuration a level is known by its name, the case of ASCII letters aside. -/
theorem level_eq_of_name_same {a b : Level} (memberA : a ∈ scheme.levels)
    (memberB : b ∈ scheme.levels) (same : sameIgnoringCase a.name b.name = true)
    : a = b :=
  List.inj_on_of_nodup_map (nodup_name_of_compile compiled) memberA memberB (eq_of_beq same)

end Distinct

/-- What the defaults compile to. -/
def defaultScheme : Scheme where
  idPrefix := "REQ"
  journeyPrefix := "JNY"
  levels := [⟨"PRD", 'p', 1⟩, ⟨"OPS", 'o', 2⟩, ⟨"DEV", 'd', 3⟩]
  idDigits := 5
  zeroPadded := true
  hashLength := 8
  implementsKeyword := "Implements"
  validatesKeyword := "Validates"
  statuses := ["Active", "Draft", "Deprecated", "Proposed"]
  allowSameLevel := true
  allowedParents := none
  testNameReferences := true

theorem compile_default : ({} : Config).compile = .ok defaultScheme := by
  rfl

end Config

end Traceability
