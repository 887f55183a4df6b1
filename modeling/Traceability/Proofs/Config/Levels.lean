import Traceability.Proofs.Config.Compile
import Traceability.Proofs.Distinct
import Traceability.Proofs.Line.Parts
import Traceability.Proofs.Text.Split

/-! The levels and statuses that a configuration is compiled to.
Levels are those that are written, sorted by rank. A look-up trims the text that it is given, but
not the names that are configured, so a name with blanks at its ends is never what is left of a
text.
-/

namespace Traceability

open Text

/-- A level as it is written. -/
def Level.spec (level : Level) : LevelSpec :=
  ⟨level.name, String.ofList [level.code], level.rank⟩

/-- A text spells a name, blanks around the text and the case of ASCII letters aside. -/
def Spells (text name : String) : Prop :=
  sameLetters name.toList (trim text.toList) = true

instance (text name : String) : Decidable (Spells text name) :=
  inferInstanceAs (Decidable (_ = true))

namespace Config

variable {config : Config} {limit : Nat} {scheme : Scheme}

-----------------------------------------------------------------------------------------
-- Levels as they are written
-----------------------------------------------------------------------------------------

theorem spec_of_compileLevel {earlier : List Level} {spec : LevelSpec} {level : Level}
    (compiled : compileLevel earlier spec = .ok level)
    : level.spec = spec := by
  unfold compileLevel at compiled
  split at compiled
  · next code written =>
      split_ifs at compiled
      obtain rfl := Except.ok.inj compiled
      rw [Level.spec, ← written, String.ofList_toList]
  · exact absurd compiled (by simp)

theorem map_spec_of_compileLevels {specs : List LevelSpec} {earlier levels : List Level}
    (compiled : compileLevels earlier specs = .ok levels)
    : levels.map Level.spec = earlier.map Level.spec ++ specs := by
  induction specs generalizing earlier with
  | nil => rw [← Except.ok.inj compiled, List.append_nil]
  | cons spec rest ih =>
      obtain ⟨level, done, compiled⟩ := exists_ok_of_bind compiled
      rw [ih compiled, List.map_append, List.map_singleton, spec_of_compileLevel done,
        List.append_assoc, List.singleton_append]

/-- Each level that is written is compiled, and nothing else is. -/
theorem levels_perm_of_compile (compiled : config.compileWithin limit = .ok scheme)
    : (scheme.levels.map Level.spec).Perm config.levels := by
  obtain ⟨levels, done, sorted⟩ := (compilesTo_of_compile compiled).levels
  rw [sorted]
  refine ((sortByRank_perm levels).map Level.spec).trans (.of_eq ?_)
  rw [map_spec_of_compileLevels done, List.map_nil, List.nil_append]

-----------------------------------------------------------------------------------------
-- Levels in order
-----------------------------------------------------------------------------------------

theorem pairwise_insertByRank (level : Level) {levels : List Level}
    (sorted : levels.Pairwise (fun a b => a.rank ≤ b.rank))
    : (insertByRank level levels).Pairwise (fun a b => a.rank ≤ b.rank) := by
  induction levels with
  | nil => exact List.pairwise_singleton _ _
  | cons other rest ih =>
      obtain ⟨first, sorted⟩ := List.pairwise_cons.mp sorted
      rw [insertByRank]
      split
      · next before =>
          refine List.pairwise_cons.mpr ⟨fun later member => ?_, ih sorted⟩
          rcases List.mem_cons.mp ((insertByRank_perm level rest).mem_iff.mp member) with rfl | old
          · exact before
          · exact first later old
      · next after =>
          have behind : level.rank ≤ other.rank := Nat.le_of_not_le after
          refine List.pairwise_cons.mpr
            ⟨fun later member => ?_, List.pairwise_cons.mpr ⟨first, sorted⟩⟩
          rcases List.mem_cons.mp member with rfl | old
          · exact behind
          · exact behind.trans (first later old)

theorem pairwise_sortByRank (levels : List Level)
    : (sortByRank levels).Pairwise (fun a b => a.rank ≤ b.rank) :=
  List.foldlRecOn
    (motive := fun sorted : List Level => sorted.Pairwise (fun a b => a.rank ≤ b.rank))
    levels _ .nil
    (fun _ sorted level _ => pairwise_insertByRank level sorted)

/-- The levels ascend by rank, and each has a code and a name of its own. -/
theorem levels_pairwise_of_compile (compiled : config.compileWithin limit = .ok scheme)
    : scheme.levels.Pairwise (fun a b =>
        a.rank < b.rank ∧ a.code ≠ b.code ∧ sameIgnoringCase a.name b.name = false) := by
  have sorted : scheme.levels.Pairwise (fun a b => a.rank ≤ b.rank) := by
    obtain ⟨levels, -, sorted⟩ := (compilesTo_of_compile compiled).levels
    exact sorted ▸ pairwise_sortByRank levels
  have ranks := List.pairwise_map.mp (nodup_rank_of_compile compiled)
  have codes := List.pairwise_map.mp (nodup_code_of_compile compiled)
  have names := List.pairwise_map.mp (nodup_name_of_compile compiled)
  refine ((sorted.and ranks).and (codes.and names)).imp ?_
  rintro a b ⟨⟨before, distinct⟩, code, name⟩
  exact ⟨Nat.lt_of_le_of_ne before distinct, code, beq_false_of_ne name⟩

-----------------------------------------------------------------------------------------
-- Looking up
-----------------------------------------------------------------------------------------

/-- A level is found by its code. -/
theorem levelByCode?_of_compile (compiled : config.compileWithin limit = .ok scheme) {level : Level}
    (member : level ∈ scheme.levels)
    : scheme.levelByCode? level.code = some level :=
  find?_eq_some_of_unique member (decide_eq_true rfl) (fun _ there same =>
    level_eq_of_code_eq compiled there member (of_decide_eq_true same))

/-- A level is found by exactly the texts that spell its name. -/
theorem levelByName?_eq_some_iff (compiled : config.compileWithin limit = .ok scheme)
    {level : Level} (member : level ∈ scheme.levels) {text : String}
    : scheme.levelByName? text = some level ↔ Spells text level.name := by
  constructor
  · intro found
    have spelled := List.find?_some found
    exact spelled
  · intro spelled
    refine find?_eq_some_of_unique member spelled (fun other there again => ?_)
    have same : sameIgnoringCase other.name level.name = true :=
      beq_iff_eq.mpr ((eq_of_beq again).trans (eq_of_beq spelled).symm)
    exact level_eq_of_name_same compiled there member same

theorem levelByName?_eq_none_iff {text : String}
    : scheme.levelByName? text = none ↔ ∀ level ∈ scheme.levels, ¬ Spells text level.name :=
  List.find?_eq_none

theorem isKnownStatus_iff {status : String}
    : scheme.isKnownStatus status = true ↔ ∃ known ∈ scheme.statuses, Spells status known :=
  List.any_eq_true

theorem trim_map_toLower (s : List Char)
    : trim (s.map Char.toLower) = (trim s).map Char.toLower := by
  have same : isBlank ∘ Char.toLower = isBlank := funext isBlank_toLower
  simp only [trim, trimWhile, dropEndWhile, ← List.map_reverse, List.dropWhile_map, same]

/-- A name with a blank at an end is spelled by no text. Witness: what is left of a text has no
blank at either end, in lower case neither. -/
theorem trimmed_of_spells {text name : String} (spelled : Spells text name)
    : Trimmed name.toList := by
  have same : name.toList.map Char.toLower = (trim text.toList).map Char.toLower :=
    eq_of_beq spelled
  have lower : (trim name.toList).map Char.toLower = name.toList.map Char.toLower := by
    rw [← trim_map_toLower, same, trim_map_toLower, trim_trim]
  have length := congrArg List.length lower
  rw [List.length_map, List.length_map] at length
  exact (isInfix_trim name.toList).eq_of_length length

/-- A text spells itself exactly if no blank is at either end of it. -/
theorem spells_self_iff {text : String} : Spells text text ↔ Trimmed text.toList := by
  refine ⟨trimmed_of_spells, fun trimmed => ?_⟩
  rw [Spells, show trim text.toList = text.toList from trimmed]
  exact beq_self_eq_true _

end Config

end Traceability
