import Traceability.Claim.Comment
import Traceability.Proofs.Digest.Hash
import Traceability.Proofs.Line.ClosingMarker
import Traceability.Repair.Rewrite

/-! Replacing the hash of a closing marker.
The hash that follows the last key of a marker is the one that was read from it, since neither
the blanks and the colon in between nor the key hold two digits in a row. What comes out is the
same marker with the new hash.
-/

namespace Traceability

open Text

namespace ClosingMarker

-----------------------------------------------------------------------------------------
-- Where the key and the hash stand
-----------------------------------------------------------------------------------------

/-- A replacement cuts the marker around the old hash. -/
theorem replaceHash?_eq_some_iff {content stored computed replaced : List Char}
    : Rewrite.replaceHash? content (some stored) computed = some replaced
      ↔ ∃ before after skipped rest,
          cutLast? key content = some (before, after)
          ∧ cutFirst? stored (key ++ after) = some (skipped, rest)
          ∧ before ++ skipped ++ computed ++ rest = replaced := by
  simp only [Rewrite.replaceHash?, show "**Hash**".toList = key from rfl, Option.bind_eq_bind,
    Option.bind_eq_some_iff, Option.pure_def, Option.some.injEq, Prod.exists]
  constructor
  · rintro ⟨before, after, last, skipped, rest, first, same⟩
    exact ⟨before, after, skipped, rest, last, first, same⟩
  · rintro ⟨before, after, skipped, rest, last, first, same⟩
    exact ⟨before, after, last, skipped, rest, first, same⟩

/-- The only signs of a separator are blanks and the sign itself. -/
theorem separated_cases {sign c : Char} {s : List Char} (separated : Separated sign s)
    (member : c ∈ s)
    : isBlank c = true ∨ c = sign := by
  obtain ⟨before, after, blanksBefore, blanksAfter, rfl⟩ := separated
  rcases List.mem_append.mp member with left | right
  · exact Or.inl (blanksBefore c left)
  · rcases List.mem_cons.mp right with same | right
    · exact Or.inr same
    · exact Or.inl (blanksAfter c right)

/-- No digit is in a separator. -/
theorem digit_not_mem_separated {sign digit : Char} {s : List Char}
    (separated : Separated sign s) (isDigit : digit ∈ hexDigits) (other : sign ∉ hexDigits)
    : digit ∉ s := by
  intro member
  rcases separated_cases separated member with blank | same
  · rw [isBlank_of_mem_hexDigits isDigit] at blank
    exact Bool.noConfusion blank
  · exact other (same ▸ isDigit)

theorem ne_nil_of_separated {sign : Char} {separator : List Char}
    (separated : Separated sign separator)
    : separator ≠ [] := by
  obtain ⟨before, after, -, -, rfl⟩ := separated
  simp

section Places

variable {colon hash blanks : List Char}

theorem not_mem_key_of_separated (separated : Separated ':' colon) : ∀ c ∈ colon, c ∉ key := by
  intro c member inKey
  rcases separated_cases separated member with blank | rfl
  · rw [solid_key.2 c inKey] at blank
    cases blank
  · exact absurd inKey (by decide)

/-- The key in front of a hash is the last one if the hash holds none. -/
theorem cutLast?_key_iff (separated : Separated ':' colon) (allBlank : Blanks blanks)
    (front hash : List Char)
    : cutLast? key (front ++ (key ++ (colon ++ (hash ++ blanks))))
        = some (front, colon ++ (hash ++ blanks))
      ↔ ¬ key <:+: hash := by
  have short : ¬ key <:+: key.tail := fun within => absurd within.length_le (by decide)
  have tail : (key ++ (colon ++ (hash ++ blanks))).tail
      = key.tail ++ (colon ++ (hash ++ blanks)) :=
    List.tail_append_of_ne_nil (by decide)
  rw [cutLast?_eq_some_iff (by decide), tail,
    infix_append_append_iff (ne_nil_of_separated separated) (not_mem_key_of_separated separated),
    infix_append_blanks_iff solid_key allBlank, or_iff_right short]

/-- A hash that neither holds a key nor occurs earlier behind the last key is replaced where it
stands. -/
theorem replaceHash?_of_fresh (separated : Separated ':' colon) (allBlank : Blanks blanks)
    (nonempty : hash ≠ []) (unnamed : ¬ key <:+: hash)
    (fresh : ¬ hash <:+: key ++ (colon ++ hash.dropLast)) (front computed : List Char)
    : Rewrite.replaceHash? (front ++ (key ++ (colon ++ (hash ++ blanks)))) (some hash) computed
      = some (front ++ (key ++ (colon ++ (computed ++ blanks)))) := by
  refine replaceHash?_eq_some_iff.mpr
    ⟨front, colon ++ (hash ++ blanks), key ++ colon, blanks, ?_, ?_, by simp⟩
  · exact (cutLast?_key_iff separated allBlank front hash).mpr unnamed
  · rw [← List.append_assoc] at fresh ⊢
    exact (cutFirst?_eq_some_iff nonempty _ _).mpr fresh

/-- A run of digits holds no key, as that has stars. -/
theorem not_key_infix_of_digits (digits : ∀ c ∈ hash, c ∈ hexDigits) : ¬ key <:+: hash :=
  fun named => absurd (digits '*' (named.subset (by decide))) (by decide)

/-- A run of two or more digits does not occur earlier behind a key. Witness: the only digit of
the key stands between signs that are none, and the separator holds none. -/
theorem not_infix_of_digits (separated : Separated ':' colon)
    (digits : ∀ c ∈ hash, c ∈ hexDigits) (long : 2 ≤ hash.length)
    : ¬ hash <:+: key ++ (colon ++ hash.dropLast) := by
  have split : key ++ (colon ++ hash.dropLast)
      = ['*', '*', 'H'] ++ (['a'] ++ ((['s', 'h', '*', '*'] ++ colon) ++ hash.dropLast)) := by
    have letters : key = ['*', '*', 'H'] ++ (['a'] ++ ['s', 'h', '*', '*']) := by decide
    simp only [letters, List.append_assoc]
  have notIn {s : List Char} (plain : ∀ c ∈ s, c ∉ hexDigits) : ∀ c ∈ s, c ∉ hash :=
    fun c member inHash => plain c member (digits c inHash)
  have start : ∀ c ∈ ['*', '*', 'H'], c ∉ hash := notIn (forall_mem_of_all (by decide))
  have behind : ∀ c ∈ ['s', 'h', '*', '*'] ++ colon, c ∉ hash := by
    intro c member inHash
    rcases List.mem_append.mp member with inKey | inColon
    · exact notIn (forall_mem_of_all (by decide)) c inKey inHash
    · exact digit_not_mem_separated separated (digits c inHash) (by decide) inColon
  rw [split]
  intro within
  rcases (infix_append_append_iff (by simp) start [] _).mp within with inNone | later
  · have size : hash.length ≤ 0 := inNone.length_le
    omega
  · rcases (infix_append_append_iff (by simp) behind ['a'] _).mp later with inLetter | inRun
    · have size : hash.length ≤ 1 := inLetter.length_le
      omega
    · have size : hash.length ≤ hash.dropLast.length := inRun.length_le
      rw [List.length_dropLast] at size
      omega

end Places

-----------------------------------------------------------------------------------------
-- The marker after the replacement
-----------------------------------------------------------------------------------------

/-- A marker with another hash. It closes a comment if the marker did. -/
structure Rehashed (computed text revised : String) : Prop where
  reads
    : ∃ marker,
        ofLine? text = some marker
        ∧ ofLine? revised = some { marker with hash? := some computed }
  closes
    : contains Claim.Comment.closeSign revised.toList
      = contains Claim.Comment.closeSign text.toList

theorem Producible.solid {hash : String} (producible : BodyHash.Producible hash)
    : Solid hash.toList := by
  refine ⟨?_, fun c member => isBlank_of_mem_hexDigits (producible.digits c member)⟩
  intro empty
  have long := producible.long
  rw [empty] at long
  exact absurd long (by decide)

theorem digit_not_mem_closeSign {c : Char} (member : c ∈ hexDigits)
    : c ∉ Claim.Comment.closeSign := by
  have all : ∀ c ∈ hexDigits, c ∉ Claim.Comment.closeSign :=
    forall_mem_of_all (by decide)
  exact all c member

theorem blank_not_mem_closeSign {c : Char} (blank : isBlank c = true)
    : c ∉ Claim.Comment.closeSign := by
  have all : ∀ c ∈ Claim.Comment.closeSign, isBlank c = false :=
    forall_mem_of_all (by decide)
  intro member
  rw [all c member] at blank
  exact Bool.noConfusion blank

/-- A marker read with the new hash has the name of the old one, since both have one head. -/
theorem reads_of_head {revised computed : String} {marker : ClosingMarker}
    {head rest : List Char} (isHead : Head marker.name.toList head)
    (split : revised.toList = head ++ rest) (hashed : storedHash? rest = some computed.toList)
    : ofLine? revised = some { marker with hash? := some computed } := by
  have revisedRead := (ofLine?_hash_iff isHead split).mpr hashed
  rw [String.ofList_toList, String.ofList_toList] at revisedRead
  exact revisedRead

theorem Head.trimEnd_append {name head rest : List Char} (isHead : Head name head)
    (allBlank : Blanks rest)
    : trimEnd (head ++ rest) = head := by
  obtain ⟨c, blanks, -, -, -, -, rfl⟩ := isHead
  have ends : "*End*".toList ++ c :: (blanks ++ '*' :: (name ++ ['*']))
      = ("*End*".toList ++ c :: (blanks ++ '*' :: name)) ++ ['*'] := by simp
  rw [ends, List.append_assoc, List.singleton_append]
  exact Text.trimEnd_append allBlank (by decide) _

/-- A marker without a hash is read with the one that is put behind its name. -/
theorem reads_of_blank {text computed : String} {marker : ClosingMarker} {head rest : List Char}
    (isHead : Head marker.name.toList head) (split : text.toList = head ++ rest)
    (allBlank : Blanks rest) (solid : Solid computed.toList)
    : ofLine? (String.ofList (trimEnd text.toList ++ " | **Hash**: ".toList ++ computed.toList))
      = some { marker with hash? := some computed } := by
  have suffix : " | **Hash**: ".toList = [' ', '|', ' '] ++ (key ++ [':', ' ']) := by decide
  have bar : Separated '|' [' ', '|', ' '] := ⟨[' '], [' '], by decide, by decide, rfl⟩
  have colon : Separated ':' [':', ' '] := ⟨[], [' '], by decide, by decide, rfl⟩
  have hashed : storedHash? (" | **Hash**: ".toList ++ computed.toList) = some computed.toList := by
    refine storedHash?_eq_some_iff.mpr ⟨_, _, [], bar, colon, by decide, solid, ?_⟩
    rw [suffix]
    simp
  rw [split, isHead.trimEnd_append allBlank]
  exact reads_of_head isHead (by rw [String.toList_ofList, List.append_assoc]) hashed

/-- A marker without a hash gets one behind its name. -/
theorem rehashed_of_blank {text computed : String} {marker : ClosingMarker}
    {head rest : List Char} (read : ofLine? text = some marker)
    (isHead : Head marker.name.toList head) (split : text.toList = head ++ rest)
    (allBlank : Blanks rest) (producible : BodyHash.Producible computed)
    : Rehashed computed text
        (String.ofList (trimEnd text.toList ++ " | **Hash**: ".toList ++ computed.toList)) := by
  constructor
  · exact ⟨marker, read, reads_of_blank isHead split allBlank (Producible.solid producible)⟩
  · have signs : ∀ c ∈ " | **Hash**: ".toList, c ∉ Claim.Comment.closeSign :=
      forall_mem_of_all (by decide)
    have plain : ∀ c ∈ " | **Hash**: ".toList ++ computed.toList,
        c ∉ Claim.Comment.closeSign := by
      intro c member
      rcases List.mem_append.mp member with inSuffix | inHash
      · exact signs c inSuffix
      · exact digit_not_mem_closeSign (producible.digits c inHash)
    rw [String.toList_ofList, split, isHead.trimEnd_append allBlank, List.append_assoc head,
      contains_append (by decide) plain,
      contains_append (by decide) (fun c member => blank_not_mem_closeSign (allBlank c member))]

/-- A marker with a hash keeps all but the hash. -/
theorem rehashed_of_hash {text computed : String} {marker : ClosingMarker}
    {head bar colon hash blanks : List Char} (read : ofLine? text = some marker)
    (isHead : Head marker.name.toList head)
    (split : text.toList = head ++ (bar ++ (key ++ (colon ++ (hash ++ blanks)))))
    (separated : Separated '|' bar) (separated' : Separated ':' colon)
    (allBlank : Blanks blanks) (digits : ∀ c ∈ hash, c ∈ hexDigits)
    (producible : BodyHash.Producible computed)
    : Rehashed computed text
        (String.ofList (head ++ (bar ++ (key ++ (colon ++ (computed.toList ++ blanks)))))) := by
  have hashed := storedHash?_eq_some_iff.mpr
    ⟨bar, colon, blanks, separated, separated', allBlank, Producible.solid producible, rfl⟩
  constructor
  · exact ⟨marker, read, reads_of_head isHead String.toList_ofList hashed⟩
  · have plain {run : List Char} (digits : ∀ c ∈ run, c ∈ hexDigits)
        : ∀ c ∈ run ++ blanks, c ∉ Claim.Comment.closeSign := by
      intro c member
      rcases List.mem_append.mp member with inRun | inBlanks
      · exact digit_not_mem_closeSign (digits c inRun)
      · exact blank_not_mem_closeSign (allBlank c inBlanks)
    have regroup (run : List Char)
        : head ++ (bar ++ (key ++ (colon ++ (run ++ blanks))))
          = (head ++ (bar ++ (key ++ colon))) ++ (run ++ blanks) := by simp
    rw [String.toList_ofList, split, regroup, regroup,
      contains_append (by decide) (plain producible.digits),
      contains_append (by decide) (plain digits)]

/-- The hash of every marker can be replaced. -/
theorem replaceHash?_marker {text computed : String} {marker : ClosingMarker}
    (read : ofLine? text = some marker)
    (stored : ∀ hash, marker.hash? = some hash → BodyHash.Producible hash)
    (producible : BodyHash.Producible computed)
    : ∃ replaced,
        Rewrite.replaceHash? text.toList (marker.hash?.map String.toList) computed.toList
          = some replaced
        ∧ Rehashed computed text (String.ofList replaced) := by
  cases known : marker.hash? with
  | none =>
      obtain ⟨head, rest, isHead, split⟩ := exists_head read
      have allBlank : Blanks rest := (ofLine?_blank_iff isHead split).mp ⟨marker, read, known⟩
      exact ⟨_, rfl, rehashed_of_blank read isHead split allBlank producible⟩
  | some hash =>
      have digits := (stored hash known).digits
      have long : 2 ≤ hash.toList.length := Nat.le_trans (by decide) (stored hash known).long
      obtain ⟨head, bar, colon, blanks, isHead, separated, separated', allBlank, solid, split⟩ :=
        exists_parts_of_hash read known
      refine ⟨_, ?_, rehashed_of_hash read isHead split separated separated' allBlank digits
        producible⟩
      have placed := replaceHash?_of_fresh separated' allBlank solid.1
        (not_key_infix_of_digits digits) (not_infix_of_digits separated' digits long)
        (head ++ bar) computed.toList
      simpa only [split, List.append_assoc, Option.map_some] using placed

end ClosingMarker

end Traceability
