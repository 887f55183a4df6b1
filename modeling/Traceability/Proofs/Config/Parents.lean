import Mathlib.Data.String.Basic
import Traceability.Proofs.Config.Compile

/-! Which parents a configuration permits.
The table of permitted parents is written with any spelling of the level names, so several of its
keys may name one level. Compilation goes through the keys in their order and puts the configured
names in place of the spellings, so the last key that names a level decides what it permits.
-/

namespace Traceability

open Text

/-- What a hierarchy says of two levels. Without a table the parent has a lower rank, or is the same
level if that is allowed. With one, the last of its keys that name the child lists a name of the
parent. -/
def Hierarchy.Permits (hierarchy : Hierarchy) (child parent : Level) : Prop :=
  match hierarchy.allowedParents with
  | none => parent.rank < child.rank ∨ hierarchy.allowSameLevel = true ∧ parent = child
  | some table =>
      ∃ key names,
        table[key]? = some names
        ∧ sameIgnoringCase child.name key = true
        ∧ (∀ other ∈ table, sameIgnoringCase child.name other = true → other ≤ key)
        ∧ ∃ name ∈ names, sameIgnoringCase parent.name name = true

namespace Config

variable {levels : List Level} {level : Level}

-----------------------------------------------------------------------------------------
-- Configured spellings
-----------------------------------------------------------------------------------------

/-- No two levels have one name, the case of ASCII letters aside. -/
def NamedApart (levels : List Level) : Prop :=
  ∀ a ∈ levels, ∀ b ∈ levels, sameIgnoringCase a.name b.name = true → a = b

/-- The configured spelling of a name is that of a level exactly if the name is its name. -/
theorem canonicalName_eq_iff (apart : NamedApart levels) (member : level ∈ levels) {name : String}
    : canonicalName levels name = .ok level.name ↔ sameIgnoringCase level.name name = true := by
  rw [canonicalName]
  constructor
  · intro found
    split at found
    · next other named =>
        have spelled := List.find?_some named
        exact Except.ok.inj found ▸ spelled
    · cases found
  · intro spelled
    have some : (levels.find? (fun level => sameIgnoringCase level.name name)).isSome = true :=
      List.find?_isSome.mpr ⟨level, member, spelled⟩
    obtain ⟨other, named⟩ := Option.isSome_iff_exists.mp some
    have same := List.find?_some named
    have both : sameIgnoringCase other.name level.name = true :=
      beq_iff_eq.mpr ((eq_of_beq same).trans (eq_of_beq spelled).symm)
    obtain rfl := apart other (List.mem_of_find?_eq_some named) level member both
    rw [named]

/-- A list of names has the configured spelling of a level in it exactly if it names the level. -/
theorem mem_canonicalNames_iff (apart : NamedApart levels) (member : level ∈ levels)
    {names spelled : List String} (done : names.mapM (canonicalName levels) = .ok spelled)
    : level.name ∈ spelled ↔ ∃ name ∈ names, sameIgnoringCase level.name name = true := by
  induction names generalizing spelled with
  | nil =>
      obtain rfl : [] = spelled := Except.ok.inj done
      simp
  | cons name rest ih =>
      rw [List.mapM_cons] at done
      obtain ⟨first, own, done⟩ := exists_ok_of_bind done
      obtain ⟨others, further, done⟩ := exists_ok_of_bind done
      obtain rfl : first :: others = spelled := Except.ok.inj done
      have head : level.name = first ↔ sameIgnoringCase level.name name = true := by
        rw [← canonicalName_eq_iff apart member, own, Except.ok.injEq, eq_comm]
      rw [List.mem_cons, head, ih further, List.exists_mem_cons_iff]

-----------------------------------------------------------------------------------------
-- The table
-----------------------------------------------------------------------------------------

/-- What the compiled table has for a level comes from the last entry that names it, and if none
does it was there before. Witness: induction along the entries; a later one replaces what an
earlier one put there. -/
theorem getElem?_of_compileParents (apart : NamedApart levels) (member : level ∈ levels)
    {entries : List (String × List String)} {table allowed : Std.ExtTreeMap String (List String)}
    (compiled : compileParents levels entries table = .ok allowed)
    : (∃ front key names behind spelled,
        entries = front ++ (key, names) :: behind
        ∧ sameIgnoringCase level.name key = true
        ∧ (∀ entry ∈ behind, ¬ sameIgnoringCase level.name entry.1 = true)
        ∧ names.mapM (canonicalName levels) = .ok spelled
        ∧ allowed[level.name]? = some spelled)
      ∨ (∀ entry ∈ entries, ¬ sameIgnoringCase level.name entry.1 = true)
        ∧ allowed[level.name]? = table[level.name]? := by
  induction entries generalizing table with
  | nil =>
      obtain rfl : table = allowed := Except.ok.inj compiled
      exact Or.inr ⟨List.forall_mem_nil _, rfl⟩
  | cons entry rest ih =>
      obtain ⟨key, names⟩ := entry
      obtain ⟨child, own, compiled⟩ := exists_ok_of_bind compiled
      obtain ⟨spelled, listed, compiled⟩ := exists_ok_of_bind compiled
      have here : child = level.name ↔ sameIgnoringCase level.name key = true := by
        rw [← canonicalName_eq_iff apart member, own, Except.ok.injEq]
      rcases ih compiled with ⟨front, later, others, behind, last, rfl, found⟩ | ⟨none, kept⟩
      · exact Or.inl ⟨(key, names) :: front, later, others, behind, last, rfl, found⟩
      · simp only [Std.ExtTreeMap.getElem?_insert, Std.LawfulEqCmp.compare_eq_iff_eq, here] at kept
        by_cases named : sameIgnoringCase level.name key = true
        · rw [if_pos named] at kept
          exact Or.inl ⟨[], key, names, rest, spelled, rfl, named, none, listed, kept⟩
        · rw [if_neg named] at kept
          exact Or.inr ⟨List.forall_mem_cons.mpr ⟨named, none⟩, kept⟩

/-- The last of the ascending keys that name a level is above all others that do. -/
theorem le_of_named {table : Std.ExtTreeMap String (List String)}
    {front behind : List (String × List String)} {key : String} {names : List String}
    (split : table.toList = front ++ (key, names) :: behind)
    (last : ∀ entry ∈ behind, ¬ sameIgnoringCase level.name entry.1 = true)
    : ∀ other ∈ table, sameIgnoringCase level.name other = true → other ≤ key := by
  intro other present named
  have ordered : table.toList.Pairwise (fun a b => a.1 < b.1) := by
    apply table.ordered_keys_toList.imp
    intro a b before
    exact compareOfLessAndEq_eq_lt.mp before
  obtain ⟨listed, found⟩ := Option.isSome_iff_exists.mp
    (Std.ExtTreeMap.isSome_getElem?_iff_mem.mpr present)
  have member := Std.ExtTreeMap.mem_toList_iff_getElem?_eq_some.mpr found
  rw [split] at ordered member
  rcases List.mem_append.mp member with before | rest
  · exact le_of_lt ((List.pairwise_append.mp ordered).2.2 _ before _ List.mem_cons_self)
  · rcases List.mem_cons.mp rest with own | after
    · exact le_of_eq (Prod.mk.inj own).1
    · exact absurd named (last _ after)

/-- The compiled table has a parent for a child exactly if the last key that names the child lists
a name of the parent. -/
theorem mem_compileParents_iff (apart : NamedApart levels) {child parent : Level}
    (memberChild : child ∈ levels) (memberParent : parent ∈ levels)
    {table allowed : Std.ExtTreeMap String (List String)}
    (compiled : compileParents levels table.toList ∅ = .ok allowed)
    : parent.name ∈ allowed[child.name]?.getD []
      ↔ ∃ key names,
          table[key]? = some names
          ∧ sameIgnoringCase child.name key = true
          ∧ (∀ other ∈ table, sameIgnoringCase child.name other = true → other ≤ key)
          ∧ ∃ name ∈ names, sameIgnoringCase parent.name name = true := by
  rcases getElem?_of_compileParents apart memberChild compiled with
    ⟨front, key, names, behind, spelled, split, named, last, listed, found⟩ | ⟨none, missing⟩
  · have highest := le_of_named split last
    have own : table[key]? = some names :=
      Std.ExtTreeMap.mem_toList_iff_getElem?_eq_some.mp (split ▸ by simp)
    rw [found, Option.getD_some, mem_canonicalNames_iff apart memberParent listed]
    constructor
    · intro listsParent
      exact ⟨key, names, own, named, highest, listsParent⟩
    · rintro ⟨other, others, there, namedToo, highestToo, listsParent⟩
      have present {key : String} {names : List String} (here : table[key]? = some names)
          : key ∈ table :=
        Std.ExtTreeMap.isSome_getElem?_iff_mem.mp (here ▸ rfl)
      obtain rfl : other = key :=
        le_antisymm (highest other (present there) namedToo) (highestToo key (present own) named)
      exact Option.some.inj (own.symm.trans there) ▸ listsParent
  · have nothing : allowed[child.name]? = Option.none := missing
    rw [nothing, Option.getD_none]
    refine iff_of_false List.not_mem_nil ?_
    rintro ⟨key, names, there, named, -⟩
    exact none _ (Std.ExtTreeMap.mem_toList_iff_getElem?_eq_some.mpr there) named

-----------------------------------------------------------------------------------------
-- Compiled configurations
-----------------------------------------------------------------------------------------

/-- The table of a compiled configuration is compiled with its levels. -/
theorem compileParents_of_compile {config : Config} {limit : Nat} {scheme : Scheme}
    (compiled : config.compileWithin limit = .ok scheme)
    {table : Std.ExtTreeMap String (List String)}
    (written : config.hierarchy.allowedParents = some table)
    : ∃ allowed,
        compileParents scheme.levels table.toList ∅ = .ok allowed
        ∧ scheme.allowedParents = some allowed := by
  unfold compileWithin at compiled
  obtain ⟨_, -, compiled⟩ := exists_ok_of_bind compiled
  obtain ⟨_, -, compiled⟩ := exists_ok_of_bind compiled
  obtain ⟨_, -, compiled⟩ := exists_ok_of_bind compiled
  obtain ⟨levels, own, compiled⟩ := exists_ok_of_bind compiled
  rw [written] at compiled
  obtain ⟨resolved, parents, compiled⟩ := exists_ok_of_bind compiled
  split at compiled
  · exact absurd compiled.symm (ok_ne_throw_bind _ _ _)
  · obtain rfl := Except.ok.inj compiled
    cases resolving : compileParents (sortByRank levels) table.toList ∅ with
    | error e =>
        rw [resolving] at parents
        cases parents
    | ok allowed =>
        rw [resolving] at parents
        exact ⟨allowed, rfl, (Except.ok.inj parents).symm⟩

/-- In every compiled configuration the levels that may stand above a level are those that the
hierarchy permits as it is written. -/
theorem permitsParent_iff {config : Config} {limit : Nat} {scheme : Scheme}
    (compiled : config.compileWithin limit = .ok scheme) {child parent : Level}
    (memberChild : child ∈ scheme.levels) (memberParent : parent ∈ scheme.levels)
    : scheme.permitsParent child parent = true ↔ config.hierarchy.Permits child parent := by
  have compiles := compilesTo_of_compile compiled
  cases written : config.hierarchy.allowedParents with
  | none =>
      simp only [Scheme.permitsParent, Hierarchy.Permits, written, compiles.allowedParents written,
        compiles.allowSameLevel, Bool.or_eq_true, Bool.and_eq_true, decide_eq_true_eq, beq_iff_eq]
      refine or_congr_right (and_congr_right (fun _ => ⟨fun same => ?_, congrArg Level.rank⟩))
      exact level_eq_of_rank_eq compiled memberParent memberChild same
  | some table =>
      obtain ⟨allowed, resolved, own⟩ := compileParents_of_compile compiled written
      have apart : NamedApart scheme.levels := fun a memberA b memberB same =>
        level_eq_of_name_same compiled memberA memberB same
      simp only [Scheme.permitsParent, Hierarchy.Permits, written, own, List.contains_iff_mem]
      exact mem_compileParents_iff apart memberChild memberParent resolved

end Config

end Traceability
