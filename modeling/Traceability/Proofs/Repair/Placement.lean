import Traceability.Proofs.Repair.Anchors

/-! Where a new hash is put.
A replacement looks for the last key of a marker and then for the old hash from there on. It finds
the hash that was read unless that holds a key behind its first character, or occurs already in
the key and the separator.
-/

namespace Traceability

open Text

namespace ClosingMarker

/-- Hexadecimal digits, at least one. -/
def Hexadecimal (s : String) : Prop :=
  s.toList ≠ [] ∧ ∀ c ∈ s.toList, c ∈ hexDigits

theorem Hexadecimal.solid {s : String} (digits : Hexadecimal s) : Solid s.toList :=
  ⟨digits.1, fun c member => isBlank_of_mem_hexDigits (digits.2 c member)⟩

-----------------------------------------------------------------------------------------
-- The last key and the first hash behind it
-----------------------------------------------------------------------------------------

section Places

variable {front colon hash blanks : List Char}

/-- A key at the start of a hash is the last one if there is no other in the hash. -/
theorem cutLast?_key_at_hash {more : List Char} (allBlank : Blanks blanks)
    (unnamed : ¬ key <:+: (key ++ more).tail)
    : cutLast? key (front ++ (key ++ (more ++ blanks))) = some (front, more ++ blanks) := by
  rw [cutLast?_eq_some_iff (by decide), ← List.append_assoc,
    List.tail_append_of_ne_nil (List.append_ne_nil_of_left_ne_nil solid_key.1 more),
    infix_append_blanks_iff solid_key allBlank]
  exact unnamed

/-- New hashes are put in the place of the one that was read exactly if that holds no key behind
its first character and, unless it starts with the key, does not occur earlier behind the last
key. Witness: a hash that consists of the digit zero shows where it is put. -/
theorem replaceHash?_in_place_iff (separated : Separated ':' colon) (allBlank : Blanks blanks)
    (solid : Solid hash)
    : (∀ computed, Hexadecimal computed →
        Rewrite.replaceHash? (front ++ (key ++ (colon ++ (hash ++ blanks)))) (some hash)
            computed.toList
          = some (front ++ (key ++ (colon ++ (computed.toList ++ blanks)))))
      ↔ ¬ key <:+: hash.tail
        ∧ (key <+: hash ∨ ¬ hash <:+: key ++ (colon ++ hash.dropLast)) := by
  have unnamed_iff : ¬ key <:+: hash ↔ ¬ key <+: hash ∧ ¬ key <:+: hash.tail := by
    obtain ⟨first, tail, rfl⟩ := List.exists_cons_of_ne_nil solid.1
    rw [List.infix_cons_iff, not_or, List.tail_cons]
  constructor
  · intro inPlace
    obtain ⟨before, after, skipped, rest, last, first, same⟩ :=
      replaceHash?_eq_some_iff.mp (inPlace "0" ⟨by decide, forall_mem_of_all (by decide)⟩)
    have unnamed : ¬ key <:+: hash.tail := by
      have regroup : front ++ (key ++ (colon ++ (hash ++ blanks)))
          = (front ++ key ++ colon) ++ (hash ++ blanks) := by simp
      rw [regroup] at last
      refine (infix_key_append_iff solid allBlank last).mp ⟨skipped, rest, ?_⟩
      rw [cutFirst?_eq first, List.append_assoc]
    refine ⟨unnamed, or_iff_not_imp_left.mpr fun starts => ?_⟩
    have here := (cutLast?_key_iff separated allBlank front hash).mpr
      (unnamed_iff.mpr ⟨starts, unnamed⟩)
    obtain ⟨rfl, rfl⟩ := Prod.mk.inj (Option.some.inj (last.symm.trans here))
    have isDigit : '0' ∈ hexDigits := by decide
    have notBefore : '0' ∉ key ++ colon := by
      rw [List.mem_append, not_or]
      exact ⟨by decide, digit_not_mem_separated separated isDigit (by decide)⟩
    have notBehind : '0' ∉ blanks := by
      intro member
      have blank := allBlank '0' member
      rw [isBlank_of_mem_hexDigits isDigit] at blank
      cases blank
    have placed : (key ++ colon) ++ '0' :: blanks = skipped ++ '0' :: rest := by
      simpa using same.symm
    obtain ⟨rfl, -, rfl⟩ := (List.append_cons_inj_of_notMem notBefore notBehind).mp placed
    rw [← List.append_assoc] at first ⊢
    exact (cutFirst?_eq_some_iff solid.1 _ _).mp first
  · rintro ⟨unnamed, place⟩ computed -
    by_cases starts : key <+: hash
    · obtain ⟨more, rfl⟩ := starts
      refine replaceHash?_eq_some_iff.mpr
        ⟨front ++ (key ++ colon), more ++ blanks, [], blanks, ?_, ?_, by simp⟩
      · rw [← cutLast?_key_at_hash allBlank unnamed]
        simp
      · rw [← List.append_assoc]
        exact cutFirst?_append_self solid.1 blanks
    · exact replaceHash?_of_fresh separated allBlank solid.1 (unnamed_iff.mpr ⟨starts, unnamed⟩)
        (place.resolve_left starts) front computed.toList

end Places

-----------------------------------------------------------------------------------------
-- Hashes of markers
-----------------------------------------------------------------------------------------

/-- A marker is read with any new hash, behind its name if it has none and otherwise in the place
of the old one. A replacement puts it there exactly if the old hash holds no key behind its first
character and, unless it starts with the key, does not occur earlier behind the last key. -/
theorem replaceHash?_of_ofLine? {text : String} {marker : ClosingMarker}
    (read : ofLine? text = some marker)
    : (marker.hash? = none →
        ∀ computed, Hexadecimal computed →
          ∃ replaced,
            Rewrite.replaceHash? text.toList none computed.toList = some replaced
            ∧ ofLine? (String.ofList replaced) = some ⟨marker.name, some computed⟩)
      ∧ ∀ hash, marker.hash? = some hash →
          ∃ front colon blanks,
            Separated ':' colon
            ∧ Blanks blanks
            ∧ text.toList = front ++ (key ++ (colon ++ (hash.toList ++ blanks)))
            ∧ (∀ computed, Hexadecimal computed →
                ofLine? (String.ofList
                    (front ++ (key ++ (colon ++ (computed.toList ++ blanks)))))
                  = some ⟨marker.name, some computed⟩)
            ∧ ((∀ computed, Hexadecimal computed →
                  Rewrite.replaceHash? text.toList (some hash.toList) computed.toList
                    = some (front ++ (key ++ (colon ++ (computed.toList ++ blanks)))))
                ↔ ¬ key <:+: hash.toList.tail
                  ∧ (key <+: hash.toList
                    ∨ ¬ hash.toList <:+: key ++ (colon ++ hash.toList.dropLast))) := by
  constructor
  · intro bare computed digits
    obtain ⟨head, rest, isHead, split⟩ := exists_head read
    have allBlank : Blanks rest := (ofLine?_blank_iff isHead split).mp ⟨marker, read, bare⟩
    exact ⟨_, rfl, reads_of_blank isHead split allBlank digits.solid⟩
  · intro hash known
    obtain ⟨head, bar, colon, blanks, isHead, separated, separated', allBlank, solid, split⟩ :=
      exists_parts_of_hash read known
    have regroup (run : List Char)
        : head ++ (bar ++ (key ++ (colon ++ (run ++ blanks))))
          = (head ++ bar) ++ (key ++ (colon ++ (run ++ blanks))) := by simp
    refine ⟨head ++ bar, colon, blanks, separated', allBlank, split.trans (regroup _), ?_, ?_⟩
    · intro computed digits
      have hashed := storedHash?_eq_some_iff.mpr
        ⟨bar, colon, blanks, separated, separated', allBlank, digits.solid, rfl⟩
      exact reads_of_head isHead (by rw [String.toList_ofList, ← regroup]) hashed
    · rw [split, regroup]
      exact replaceHash?_in_place_iff separated' allBlank solid

/-- A marker whose hash is a letter of the key. -/
def letterOfKeyText : String :=
  "*End* *Login* | **Hash**: a"

theorem replaceHash?_of_ofLine?_letterOfKeyText
    : ofLine? letterOfKeyText = some ⟨"Login", some "a"⟩
      ∧ ∃ front colon blanks,
          Separated ':' colon
          ∧ Blanks blanks
          ∧ letterOfKeyText.toList = front ++ (key ++ (colon ++ ("a".toList ++ blanks)))
          ∧ ¬ ∀ computed, Hexadecimal computed →
              Rewrite.replaceHash? letterOfKeyText.toList (some "a".toList) computed.toList
                = some (front ++ (key ++ (colon ++ (computed.toList ++ blanks)))) := by
  have read : ofLine? letterOfKeyText = some ⟨"Login", some "a"⟩ := by decide +kernel
  obtain ⟨front, colon, blanks, separated, allBlank, split, -, inPlace⟩ :=
    (replaceHash?_of_ofLine? read).2 "a" rfl
  refine ⟨read, front, colon, blanks, separated, allBlank, split, ?_⟩
  rw [inPlace]
  rintro ⟨-, starts | fresh⟩
  · exact absurd starts.length_le (by decide)
  · have inKey : "a".toList <:+: key := by decide
    exact fresh (inKey.trans (List.prefix_append _ _).isInfix)

/-- So the new hash may be put into the key, or nowhere. -/
theorem replaceHash?_letterOfKeyText_keyInHash
    : (ofLine? letterOfKeyText = some ⟨"Login", some "a"⟩
        ∧ Rewrite.replaceHash? letterOfKeyText.toList (some "a".toList) "feedbeef".toList
          = some "*End* *Login* | **Hfeedbeefsh**: a".toList
        ∧ ofLine? "*End* *Login* | **Hfeedbeefsh**: a" = none)
      ∧ ofLine? "*End* *Login* | **Hash**: x**Hash**y" = some ⟨"Login", some "x**Hash**y"⟩
      ∧ Rewrite.replaceHash? "*End* *Login* | **Hash**: x**Hash**y".toList
          (some "x**Hash**y".toList) "feedbeef".toList = none := by
  decide +kernel

end ClosingMarker

end Traceability
