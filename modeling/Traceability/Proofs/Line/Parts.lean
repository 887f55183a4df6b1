import Traceability.Claim.Reference
import Traceability.Claim.Requirement
import Traceability.Proofs.Scheme.Identifier
import Traceability.Proofs.Text.Padding

/-! What readers take from a line stands on it.
The words of a marker, the targets of a metadata line and the name of a function are parts of the
text of their line. An identifier that is read from a function name stands there with underscores
in place of its hyphens.
-/

namespace Traceability

-----------------------------------------------------------------------------------------
-- Parts of a text
-----------------------------------------------------------------------------------------

namespace Text

theorem trimStart_suffix (s : List Char) : trimStart s <:+ s :=
  List.dropWhile_suffix isBlank

theorem isInfix_trimWhile (p : Char → Bool) (s : List Char) : trimWhile p s <:+: s := by
  have front : trimWhile p s <+: s.dropWhile p := by
    rw [trimWhile, dropEndWhile, ← List.reverse_suffix, List.reverse_reverse]
    exact List.dropWhile_suffix p
  exact front.isInfix.trans (List.dropWhile_suffix p).isInfix

theorem isInfix_trim (s : List Char) : trim s <:+: s :=
  isInfix_trimWhile isBlank s

theorem suffix_of_strip? {word s rest : List Char} (stripped : strip? word s = some rest)
    : rest <:+ s :=
  strip?_eq_some_iff.mp stripped ▸ List.suffix_append word rest

theorem suffix_of_stripFolded? {word s rest : List Char}
    (stripped : stripFolded? word s = some rest)
    : rest <:+ s := by
  rw [stripFolded?_eq_stripBy, stripBy] at stripped
  obtain ⟨-, same⟩ := Option.ite_none_right_eq_some.mp stripped
  exact Option.some.inj same ▸ List.drop_suffix word.length s

/-- The first piece of a text starts it, and the others are parts of it. -/
theorem splitWhere_parts {p : Char → Bool} {s first : List Char} {more : List (List Char)}
    (split : splitWhere p s = first :: more)
    : first <+: s ∧ ∀ piece ∈ more, piece <:+: s := by
  induction s generalizing first more with
  | nil =>
      obtain ⟨rfl, rfl⟩ := List.cons.inj split
      exact ⟨List.nil_prefix, fun _ none => absurd none List.not_mem_nil⟩
  | cons c cs ih =>
      cases rest : splitWhere p cs with
      | nil => exact absurd rest (splitWhere_ne_nil p cs)
      | cons next later =>
          obtain ⟨front, inside⟩ := ih rest
          have further {piece : List Char} (part : piece <:+: cs) : piece <:+: c :: cs :=
            part.trans (List.suffix_cons c cs).isInfix
          rw [splitWhere, rest] at split
          by_cases cut : p c = true
          · rw [if_pos cut] at split
            obtain ⟨rfl, rfl⟩ := List.cons.inj split
            refine ⟨List.nil_prefix, fun piece member => further ?_⟩
            rcases List.mem_cons.mp member with rfl | member
            · exact front.isInfix
            · exact inside piece member
          · rw [if_neg cut] at split
            obtain ⟨rfl, rfl⟩ := List.cons.inj split
            exact ⟨List.cons_prefix_cons.mpr ⟨rfl, front⟩,
              fun piece member => further (inside piece member)⟩

theorem infix_of_mem_splitWhere {p : Char → Bool} {s piece : List Char}
    (member : piece ∈ splitWhere p s)
    : piece <:+: s := by
  cases split : splitWhere p s with
  | nil => exact absurd split (splitWhere_ne_nil p s)
  | cons first more =>
      obtain ⟨front, inside⟩ := splitWhere_parts split
      rw [split] at member
      rcases List.mem_cons.mp member with rfl | later
      · exact front.isInfix
      · exact inside piece later

end Text

open Text

-----------------------------------------------------------------------------------------
-- Markers
-----------------------------------------------------------------------------------------

namespace Marker

theorem suffix_of_stripSign? {signs : List (List Char)} {s rest : List Char}
    (stripped : stripSign? signs s = some rest)
    : rest <:+ s := by
  obtain ⟨sign, -, found⟩ := List.exists_of_findSome?_eq_some stripped
  exact suffix_of_strip? found

theorem suffix_of_rest? {keyword s rest : List Char} (found : rest? keyword s = some rest)
    : rest <:+ s := by
  induction s with
  | nil => cases found
  | cons c s ih =>
      rw [rest?, Option.or_eq_some_iff] at found
      rcases found with here | ⟨-, later⟩
      · obtain ⟨afterSign, sign, here⟩ := Option.bind_eq_some_iff.mp here
        obtain ⟨afterKeyword, spelled, here⟩ := Option.bind_eq_some_iff.mp here
        obtain ⟨tail, colon, here⟩ := Option.bind_eq_some_iff.mp here
        obtain ⟨-, same⟩ := Option.ite_none_left_eq_some.mp here
        obtain rfl := Option.some.inj same
        calc
          tail <:+ trimStart afterKeyword := suffix_of_strip? colon
          _ <:+ afterKeyword := trimStart_suffix afterKeyword
          _ <:+ trimStart afterSign := suffix_of_stripFolded? spelled
          _ <:+ afterSign := trimStart_suffix afterSign
          _ <:+ c :: s := suffix_of_stripSign? sign
      · exact (ih later).trans (List.suffix_cons c s)

theorem suffix_of_continuation? {s rest : List Char} (found : continuation? s = some rest)
    : rest <:+ s := by
  obtain ⟨afterSign, sign, found⟩ := Option.bind_eq_some_iff.mp found
  obtain ⟨-, same⟩ := Option.ite_none_left_eq_some.mp found
  obtain rfl := Option.some.inj same
  calc
    trimStart afterSign <:+ afterSign := trimStart_suffix afterSign
    _ <:+ trimStart s := suffix_of_stripSign? sign
    _ <:+ s := trimStart_suffix s

theorem infix_of_mem_words {s word : List Char} (member : word ∈ words s) : word <:+: s := by
  obtain ⟨piece, own, rfl⟩ := List.mem_map.mp (List.mem_of_mem_filter member)
  exact (isInfix_trimWhile _ piece).trans (infix_of_mem_splitWhere own)

end Marker

-----------------------------------------------------------------------------------------
-- Metadata lines
-----------------------------------------------------------------------------------------

/-- The value of a field is a part of its line. -/
theorem Field.infix_of_mem_ofLine {text : String} {field : Field} (member : field ∈ ofLine text)
    : field.value.toList <:+: text.toList := by
  obtain ⟨segment, own, read⟩ := List.mem_filterMap.mp member
  obtain ⟨behind, stars, read⟩ := Option.bind_eq_some_iff.mp read
  obtain ⟨⟨key, rest⟩, cut, read⟩ := Option.bind_eq_some_iff.mp read
  obtain ⟨value, colon, read⟩ := Option.bind_eq_some_iff.mp read
  obtain rfl := Option.some.inj read
  have behindKey : rest <:+ behind := by
    rw [cutFirst?_eq cut, ← List.append_assoc]
    exact List.suffix_append _ rest
  have infixes : trim value <:+: segment :=
    calc
      trim value <:+: value := isInfix_trim value
      _ <:+: trimStart rest := (suffix_of_strip? colon).isInfix
      _ <:+: rest := (trimStart_suffix rest).isInfix
      _ <:+: behind := behindKey.isInfix
      _ <:+: trim segment := (suffix_of_strip? stars).isInfix
      _ <:+: segment := isInfix_trim segment
  rw [String.toList_ofList]
  exact infixes.trans (infix_of_mem_splitWhere own)

theorem infix_of_mem_targetList {value target : String} (member : target ∈ targetList value)
    : target.toList <:+: value.toList := by
  obtain ⟨piece, own, rfl⟩ := List.mem_map.mp member
  obtain ⟨segment, split, rfl⟩ := List.mem_map.mp (List.mem_of_mem_filter own)
  rw [String.toList_ofList]
  exact (isInfix_trim segment).trans (infix_of_mem_splitWhere split)

/-- A target of a metadata line is a part of it. -/
theorem Claim.Requirement.infix_of_mem_targets {text key target : String}
    (member : target ∈ targets (Field.ofLine text) key)
    : target.toList <:+: text.toList := by
  rw [targets] at member
  cases found : Field.value? (Field.ofLine text) key with
  | none =>
      rw [found] at member
      cases member
  | some value =>
      rw [found] at member
      obtain ⟨field, last, rfl⟩ := Option.map_eq_some_iff.mp found
      have own := List.mem_of_mem_filter (List.mem_of_getLast? last)
      exact (infix_of_mem_targetList member).trans (Field.infix_of_mem_ofLine own)

-----------------------------------------------------------------------------------------
-- Function names
-----------------------------------------------------------------------------------------

namespace Definition

/-- An identifier as function names write it. -/
def underscored (id : List Char) : List Char :=
  id.map (fun c => if c = '-' then '_' else c)

theorem suffix_of_afterBlanks? {s rest : List Char} (found : afterBlanks? s = some rest)
    : rest <:+ s := by
  cases s with
  | nil => cases found
  | cons c s =>
      obtain ⟨-, same⟩ := Option.ite_none_right_eq_some.mp found
      exact Option.some.inj same ▸ (trimStart_suffix s).trans (List.suffix_cons c s)

theorem suffix_of_afterVisibility? {s rest : List Char} (found : afterVisibility? s = some rest)
    : rest <:+ s := by
  rw [afterVisibility?] at found
  split at found
  · exact Option.some.inj found ▸ List.suffix_rfl
  · next behind visible =>
      have closed : (afterParens? behind).getD behind <:+ behind := by
        cases parens : afterParens? behind with
        | none => exact List.suffix_rfl
        | some inner =>
            obtain ⟨opened, paren, closes⟩ := Option.bind_eq_some_iff.mp parens
            calc
              inner <:+ opened.dropWhile (· != ')') := suffix_of_strip? closes
              _ <:+ opened := List.dropWhile_suffix _
              _ <:+ behind := suffix_of_strip? paren
      calc
        rest <:+ (afterParens? behind).getD behind := suffix_of_afterBlanks? found
        _ <:+ behind := closed
        _ <:+ s := suffix_of_strip? visible

theorem suffix_of_afterAsync? {s rest : List Char} (found : afterAsync? s = some rest)
    : rest <:+ s := by
  rw [afterAsync?] at found
  split at found
  · exact Option.some.inj found ▸ List.suffix_rfl
  · next behind async => exact (suffix_of_afterBlanks? found).trans (suffix_of_strip? async)

/-- The name of a function is a part of its line, and no hyphen is in it. -/
theorem name?_spec {text : String} {name : List Char} (named : name? text = some name)
    : name <:+: text.toList ∧ '-' ∉ name := by
  obtain ⟨visible, visibility, named⟩ := Option.bind_eq_some_iff.mp named
  obtain ⟨async, asynchronous, named⟩ := Option.bind_eq_some_iff.mp named
  obtain ⟨rest, keyed, named⟩ := Option.bind_eq_some_iff.mp named
  obtain ⟨keyword, -, found⟩ := List.exists_of_findSome?_eq_some keyed
  obtain ⟨behind, stripped, blanks⟩ := Option.bind_eq_some_iff.mp found
  have suffix : rest <:+ text.toList :=
    calc
      rest <:+ behind := suffix_of_afterBlanks? blanks
      _ <:+ async := suffix_of_strip? stripped
      _ <:+ visible := suffix_of_afterAsync? asynchronous
      _ <:+ trimStart text.toList := suffix_of_afterVisibility? visibility
      _ <:+ text.toList := trimStart_suffix text.toList
  cases rest with
  | nil => cases named
  | cons c rest =>
      obtain ⟨starts, same⟩ := Option.ite_none_right_eq_some.mp named
      obtain rfl := Option.some.inj same
      constructor
      · have front : c :: rest.takeWhile isNamePart <+: c :: rest :=
          List.cons_prefix_cons.mpr ⟨rfl, List.takeWhile_prefix _⟩
        exact front.isInfix.trans suffix.isInfix
      · intro hyphen
        rcases List.mem_cons.mp hyphen with rfl | later
        · exact absurd starts (by decide)
        · exact absurd (List.mem_takeWhile_imp later) (by decide)

theorem underscored_of_not_mem {s : List Char} (plain : '-' ∉ s) : underscored s = s := by
  rw [underscored]
  refine (List.map_congr_left (fun c member => if_neg ?_)).trans (List.map_id s)
  rintro rfl
  exact plain member

theorem underscored_append (s t : List Char)
    : underscored (s ++ t) = underscored s ++ underscored t :=
  List.map_append

/-- A letter that ends an identifier stands behind an underscore. -/
theorem letterSuffix_spec (s : List Char)
    : (letterSuffix s).2 <:+ s
      ∧ ∀ letter, (letterSuffix s).1 = some letter → ['_', letter] <+: s := by
  rw [letterSuffix.eq_def]
  split
  · next letter =>
      split
      · exact ⟨List.nil_suffix, fun other same => Option.some.inj same ▸ List.prefix_rfl⟩
      · exact ⟨List.suffix_rfl, nofun⟩
  · next letter rest =>
      split
      · refine ⟨⟨['_', letter, '_'], rfl⟩, fun other same => ?_⟩
        exact Option.some.inj same ▸ ⟨'_' :: rest, rfl⟩
      · exact ⟨List.suffix_rfl, nofun⟩
  · exact ⟨List.suffix_rfl, nofun⟩

/-- An identifier that starts a text stands there with underscores. -/
theorem takeId?_spec {scheme : Scheme} {s id rest : List Char}
    (taken : takeId? scheme s = some (id, rest)) (plain : '-' ∉ s)
    : underscored id <+: s ∧ rest <:+ s := by
  obtain ⟨⟨code, digits, behind⟩, found, same⟩ := Option.map_eq_some_iff.mp taken
  obtain ⟨inside, lettered⟩ := letterSuffix_spec behind
  dsimp only at same
  obtain ⟨rfl, rfl⟩ := Prod.mk.inj same
  obtain ⟨rfl, -⟩ := Scheme.takePrefixed?_spec found
  have split
      : scheme.idPrefix.toList ++ '_' :: code :: (digits ++ behind)
        = (scheme.idPrefix.toList ++ '_' :: code :: digits) ++ behind := by
    simp only [List.append_assoc, List.cons_append]
  rw [split] at plain ⊢
  simp only [List.mem_append, List.mem_cons, not_or] at plain
  obtain ⟨⟨inPrefix, -, inCode, inDigits⟩, inBehind⟩ := plain
  have spelled
      : underscored (scheme.idText code digits)
        = scheme.idPrefix.toList ++ '_' :: code :: digits := by
    have parts : underscored (code :: digits) = code :: digits :=
      underscored_of_not_mem (List.not_mem_cons_of_ne_of_not_mem inCode inDigits)
    rw [Scheme.idText, underscored_append, underscored_of_not_mem inPrefix]
    exact congrArg (fun rest => scheme.idPrefix.toList ++ '_' :: rest) parts
  refine ⟨?_, inside.trans (List.suffix_append _ behind)⟩
  rw [underscored_append, spelled, List.prefix_append_right_inj]
  cases found : (letterSuffix behind).1 with
  | none => exact List.nil_prefix
  | some letter =>
      have front := lettered letter found
      have isLetter : letter ≠ '-' := by
        rintro rfl
        exact inBehind (front.mem (by simp))
      simpa [underscored, isLetter] using front

/-- The identifiers in a name stand there with underscores, by induction along the name. -/
theorem infix_of_mem_idsWithin {scheme : Scheme} {bound : Nat} {s id : List Char}
    (plain : '-' ∉ s) (member : id ∈ idsWithin scheme bound s)
    : underscored id <:+: s := by
  induction bound, s using idsWithin.induct scheme with
  | case1 s =>
      rw [idsWithin] at member
      cases member
  | case2 bound =>
      rw [idsWithin] at member
      · cases member
      · assumption
  | case3 bound c s first rest taken ih =>
      obtain ⟨front, behind⟩ := takeId?_spec taken plain
      rw [idsWithin, taken] at member
      rcases List.mem_cons.mp member with rfl | later
      · exact front.isInfix
      · exact (ih (fun hyphen => plain (behind.mem hyphen)) later).trans behind.isInfix
  | case4 bound c s none ih =>
      rw [idsWithin, none] at member
      have inside := ih (fun hyphen => plain (List.mem_cons_of_mem c hyphen)) member
      exact inside.trans (List.suffix_cons c s).isInfix

end Definition

end Traceability
