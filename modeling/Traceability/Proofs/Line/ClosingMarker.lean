import Traceability.Line.ClosingMarker
import Traceability.Proofs.Text.Search

/-! The form of closing markers.
A marker is a head with its name and, perhaps, a key with a hash. Reading a marker and writing
one of this form are inverse, so a marker whose hash is changed is a marker with that hash.
-/

namespace Traceability

namespace Text

/-- A sign with blanks around it. -/
def Separated (sign : Char) (s : List Char) : Prop :=
  ∃ before after, Blanks before ∧ Blanks after ∧ s = before ++ sign :: after

/-- A run of characters none of which is blank. -/
def Solid (s : List Char) : Prop :=
  s ≠ [] ∧ ∀ c ∈ s, isBlank c = false

theorem Solid.trimStart_append {s : List Char} (h : Solid s) (rest : List Char)
    : trimStart (s ++ rest) = s ++ rest := by
  obtain ⟨c, cs, rfl⟩ := List.exists_cons_of_ne_nil h.1
  exact trimStart_cons (h.2 c List.mem_cons_self) _

/-- A solid word in a text with blanks behind it is in the text. -/
theorem infix_append_blanks_iff {word blanks : List Char} (solid : Solid word)
    (allBlank : Blanks blanks) (s : List Char)
    : word <:+: s ++ blanks ↔ word <:+: s := by
  rw [← contains_iff, ← contains_iff, contains_append solid.1]
  intro c member inWord
  have notBlank := solid.2 c inWord
  rw [allBlank c member] at notBlank
  exact Bool.noConfusion notBlank

/-- A sign between blanks is taken off a text by dropping blanks before and after it. -/
theorem strip?_separated_iff {sign : Char} (solid : isBlank sign = false) {s rest : List Char}
    (trimmed : trimStart rest = rest)
    : (strip? [sign] (trimStart s)).map trimStart = some rest
      ↔ ∃ separator, Separated sign separator ∧ s = separator ++ rest := by
  rw [Option.map_eq_some_iff]
  constructor
  · intro ⟨after, stripped, same⟩
    obtain ⟨before, blanksBefore, split⟩ := exists_blanks_trimStart s
    obtain ⟨between, blanksAfter, splitAfter⟩ := exists_blanks_trimStart after
    rw [strip?_eq_some_iff.mp stripped] at split
    refine ⟨before ++ sign :: between, ⟨before, between, blanksBefore, blanksAfter, rfl⟩, ?_⟩
    rw [split, splitAfter, same]
    simp
  · intro ⟨separator, ⟨before, after, blanksBefore, blanksAfter, separated⟩, split⟩
    refine ⟨after ++ rest, ?_, ?_⟩
    · rw [split, separated, List.append_assoc, trimStart_append blanksBefore, List.cons_append,
        trimStart_cons solid, strip?_eq_some_iff]
      rfl
    · rw [trimStart_append blanksAfter, trimmed]

/-- A text that is one solid run, blanks after it aside. -/
theorem takeWhile_solid_iff {s run : List Char}
    : (s.takeWhile (fun c => !isBlank c) = run
        ∧ run ≠ []
        ∧ (s.dropWhile (fun c => !isBlank c)).all isBlank = true)
      ↔ ∃ blanks, Blanks blanks ∧ Solid run ∧ s = run ++ blanks := by
  constructor
  · intro ⟨taken, nonempty, left⟩
    refine ⟨_, List.all_eq_true.mp left, ⟨nonempty, ?_⟩, ?_⟩
    · intro c member
      rw [← taken] at member
      simpa using List.mem_takeWhile_imp member
    · rw [← taken, List.takeWhile_append_dropWhile]
  · intro ⟨blanks, allBlank, solid, split⟩
    have passes : ∀ c ∈ run, (!isBlank c) = true := by
      intro c member
      rw [solid.2 c member]
      rfl
    have stops : blanks.takeWhile (fun c => !isBlank c) = []
        ∧ blanks.dropWhile (fun c => !isBlank c) = blanks := by
      cases blanks with
      | nil => exact ⟨rfl, rfl⟩
      | cons c rest => simp [allBlank c List.mem_cons_self]
    rw [split, List.takeWhile_append_of_pos passes, List.dropWhile_append_of_pos passes, stops.1,
      stops.2, List.append_nil]
    exact ⟨rfl, solid.1, List.all_eq_true.mpr allBlank⟩

end Text

namespace ClosingMarker

open Text

/-- The key in front of a stored hash. -/
def key : List Char := "**Hash**".toList

theorem solid_key : Solid key := by
  exact ⟨by decide, forall_mem_of_all (by decide)⟩

/-- A hash is read exactly from a bar, the key, a colon and the hash, with blanks between them
and after the hash. -/
theorem storedHash?_eq_some_iff {s hash : List Char}
    : storedHash? s = some hash
      ↔ ∃ bar colon blanks,
          Separated '|' bar
          ∧ Separated ':' colon
          ∧ Blanks blanks
          ∧ Solid hash
          ∧ s = bar ++ (key ++ (colon ++ (hash ++ blanks))) := by
  constructor
  · intro read
    obtain ⟨afterBar, bar, read⟩ := Option.bind_eq_some_iff.mp read
    obtain ⟨afterKey, keyed, read⟩ := Option.bind_eq_some_iff.mp read
    obtain ⟨afterColon, colon, read⟩ := Option.bind_eq_some_iff.mp read
    have keyed := strip?_eq_some_iff.mp keyed
    obtain ⟨blanks, allBlank, solid, last⟩ : ∃ blanks, Blanks blanks ∧ Solid hash
        ∧ trimStart afterColon = hash ++ blanks := by
      obtain ⟨⟨nonempty, left⟩, taken⟩ := Option.ite_none_right_eq_some.mp read
      have taken := Option.some.inj taken
      exact takeWhile_solid_iff.mp ⟨taken, taken ▸ nonempty, left⟩
    obtain ⟨first, separated, split⟩ := (strip?_separated_iff (by decide)
      (solid_key.trimStart_append afterKey)).mp
      (Option.map_eq_some_iff.mpr ⟨afterBar, bar, keyed⟩)
    obtain ⟨second, separated', split'⟩ := (strip?_separated_iff (by decide)
      (solid.trimStart_append blanks)).mp
      (Option.map_eq_some_iff.mpr ⟨afterColon, colon, last⟩)
    exact ⟨first, second, blanks, separated, separated', allBlank, solid, by rw [split, split']⟩
  · intro ⟨bar, colon, blanks, separated, separated', allBlank, solid, split⟩
    obtain ⟨afterBar, barFound, keyed⟩ := Option.map_eq_some_iff.mp
      ((strip?_separated_iff (by decide) (solid_key.trimStart_append _)).mpr
        ⟨bar, separated, split⟩)
    obtain ⟨afterColon, colonFound, last⟩ := Option.map_eq_some_iff.mp
      ((strip?_separated_iff (by decide) (solid.trimStart_append blanks)).mpr
        ⟨colon, separated', rfl⟩)
    obtain ⟨taken, nonempty, left⟩ :=
      takeWhile_solid_iff.mpr ⟨blanks, allBlank, solid, rfl⟩
    have keyFound := strip?_append key (colon ++ (hash ++ blanks))
    rw [← keyed] at keyFound
    rw [storedHash?, barFound]
    simp only [Option.bind_eq_bind, Option.bind_some]
    rw [show "**Hash**".toList = key from rfl, keyFound]
    simp only [Option.bind_some]
    rw [colonFound]
    simp only [Option.bind_some]
    rw [last, taken, if_pos ⟨nonempty, left⟩]

-----------------------------------------------------------------------------------------
-- Heads
-----------------------------------------------------------------------------------------

/-- The part of a marker up to its name. -/
def Head (name s : List Char) : Prop :=
  ∃ c blanks,
    isBlank c = true
    ∧ Blanks blanks
    ∧ '*' ∉ name
    ∧ name ≠ []
    ∧ s = "*End*".toList ++ c :: (blanks ++ '*' :: (name ++ ['*']))

/-- What follows the head of a marker decides about its hash. -/
theorem ofLine?_of_head {name head rest : List Char} (isHead : Head name head) {text : String}
    (split : text.toList = head ++ rest)
    : ofLine? text
      = if rest.all isBlank then some ⟨String.ofList name, none⟩
        else
          (storedHash? rest).map (fun hash =>
            ⟨String.ofList name, some (String.ofList hash)⟩) := by
  obtain ⟨c, blanks, blank, allBlank, noStar, nonempty, rfl⟩ := isHead
  have start : strip? "*End*".toList text.toList
      = some (c :: (blanks ++ '*' :: (name ++ '*' :: rest))) := by
    rw [split, strip?_eq_some_iff]
    simp
  have taken : (name ++ '*' :: rest).takeWhile (· != '*') = name := by
    rw [List.takeWhile_append_of_pos (fun d member => by
      simpa using fun same : d = '*' => noStar (same ▸ member))]
    simp
  have left : (name ++ '*' :: rest).dropWhile (· != '*') = '*' :: rest := by
    rw [List.dropWhile_append_of_pos (fun d member => by
      simpa using fun same : d = '*' => noStar (same ▸ member))]
    simp
  rw [ofLine?, start]
  simp only [blank, if_true]
  rw [trimStart_append allBlank, trimStart_cons (by decide), named?,
    strip?_eq_some_iff.mpr (List.singleton_append).symm]
  simp only [Option.bind_eq_bind, Option.bind_some]
  rw [taken, left, strip?_eq_some_iff.mpr (List.singleton_append).symm]
  simp only [Option.bind_some, nonempty, if_false]
  split
  · rfl
  · cases storedHash? rest <;> rfl

/-- Every marker has a head. -/
theorem exists_head {text : String} {marker : ClosingMarker} (read : ofLine? text = some marker)
    : ∃ head rest, Head marker.name.toList head ∧ text.toList = head ++ rest := by
  rw [ofLine?] at read
  split at read
  · next c s start =>
      obtain ⟨blank, read⟩ := Option.ite_none_right_eq_some.mp read
      obtain ⟨afterStar, opened, read⟩ := Option.bind_eq_some_iff.mp read
      obtain ⟨rest, closed, read⟩ := Option.bind_eq_some_iff.mp read
      obtain ⟨blanks, allBlank, split⟩ := exists_blanks_trimStart s
      let name := afterStar.takeWhile (· != '*')
      have nonempty : name ≠ [] := by
        intro empty
        rw [if_pos empty] at read
        exact absurd read (by simp)
      have named : marker.name.toList = name := by
        rw [if_neg nonempty] at read
        split at read
        · exact Option.some.inj read ▸ String.toList_ofList
        · obtain ⟨hash, -, read⟩ := Option.bind_eq_some_iff.mp read
          exact Option.some.inj read ▸ String.toList_ofList
      have noStar : '*' ∉ name := by
        intro member
        have passes := List.mem_takeWhile_imp member
        exact absurd passes (by decide)
      refine ⟨"*End*".toList ++ c :: (blanks ++ '*' :: (name ++ ['*'])), rest,
        ⟨c, blanks, blank, allBlank, named ▸ noStar, named ▸ nonempty, by rw [named]⟩, ?_⟩
      have whole : afterStar = name ++ '*' :: rest := by
        rw [← List.singleton_append, ← strip?_eq_some_iff.mp closed,
          List.takeWhile_append_dropWhile]
      rw [strip?_eq_some_iff.mp start, split, strip?_eq_some_iff.mp opened, whole]
      simp
  · exact absurd read (by simp)

/-- A head with nothing but blanks behind it is a marker without a hash. -/
theorem ofLine?_blank_iff {name head rest : List Char} (isHead : Head name head) {text : String}
    (split : text.toList = head ++ rest)
    : (∃ marker, ofLine? text = some marker ∧ marker.hash? = none)
      ↔ Blanks rest := by
  rw [ofLine?_of_head isHead split]
  by_cases blank : rest.all isBlank = true
  · simp only [blank, if_true]
    exact iff_of_true ⟨_, rfl, rfl⟩ (List.all_eq_true.mp blank)
  · rw [if_neg blank]
    refine iff_of_false ?_ (fun all => blank (List.all_eq_true.mpr all))
    intro ⟨marker, read, bare⟩
    obtain ⟨hash, -, rfl⟩ := Option.map_eq_some_iff.mp read
    exact absurd bare (by simp)

/-- A head with a key and a hash behind it is a marker with this hash. -/
theorem ofLine?_hash_iff {name head rest hash : List Char} (isHead : Head name head)
    {text : String} (split : text.toList = head ++ rest)
    : ofLine? text = some ⟨String.ofList name, some (String.ofList hash)⟩
      ↔ storedHash? rest = some hash := by
  rw [ofLine?_of_head isHead split]
  by_cases blank : rest.all isBlank = true
  · rw [if_pos blank]
    refine iff_of_false (by simp) ?_
    intro read
    obtain ⟨_, _, _, ⟨before, after, -, -, rfl⟩, -, -, -, rfl⟩ := storedHash?_eq_some_iff.mp read
    have bar := List.all_eq_true.mp blank '|' (by simp)
    exact absurd bar (by decide)
  · rw [if_neg blank, Option.map_eq_some_iff]
    constructor
    · intro ⟨found, read, same⟩
      have sameHash := Option.some.inj (ClosingMarker.mk.inj same).2
      rw [← String.ofList_inj.mp sameHash]
      exact read
    · intro read
      exact ⟨hash, read, rfl⟩

/-- The parts of a marker with a hash. -/
theorem exists_parts_of_hash {text hash : String} {marker : ClosingMarker}
    (read : ofLine? text = some marker) (known : marker.hash? = some hash)
    : ∃ head bar colon blanks,
        Head marker.name.toList head
        ∧ Separated '|' bar
        ∧ Separated ':' colon
        ∧ Blanks blanks
        ∧ Solid hash.toList
        ∧ text.toList = head ++ (bar ++ (key ++ (colon ++ (hash.toList ++ blanks)))) := by
  obtain ⟨head, rest, isHead, split⟩ := exists_head read
  have same : marker = ⟨String.ofList marker.name.toList, some (String.ofList hash.toList)⟩ := by
    rw [String.ofList_toList, String.ofList_toList, ← known]
  obtain ⟨bar, colon, blanks, separated, separated', allBlank, solid, rfl⟩ :=
    storedHash?_eq_some_iff.mp ((ofLine?_hash_iff isHead split).mp (same ▸ read))
  exact ⟨head, bar, colon, blanks, isHead, separated, separated', allBlank, solid, split⟩

end ClosingMarker

end Traceability
