import Traceability.Proofs.Line.ClosingMarker
import Traceability.Proofs.Line.Heading
import Traceability.Proofs.Scheme.Reading
import Traceability.Proofs.Text.Split

/-! Lines as a writer has them.
The lines of a requirement are written in one plain form: single spaces where blanks may stand,
and every field in its place. A reader takes from each exactly what was written on it.
-/

namespace Traceability

open Text

-----------------------------------------------------------------------------------------
-- Metadata lines
-----------------------------------------------------------------------------------------

namespace Field

/-- A field with this key and value. -/
def written (key value : List Char) : List Char :=
  '*' :: '*' :: (key ++ ['*', '*', ':']) ++ ' ' :: value

theorem ofSegment?_trim (segment : List Char) : ofSegment? (trim segment) = ofSegment? segment := by
  rw [ofSegment?, trim_trim]
  rfl

theorem ofSegment?_written {key : List Char} (noStar : '*' ∉ key) (value : List Char)
    : ofSegment? (written key value)
      = some ⟨String.ofList ((trim key).map Char.toLower), String.ofList (trim value)⟩ := by
  have trimmed : Trimmed ('*' :: '*' :: (key ++ ['*', '*', ':'])) :=
    trimmed_iff.mpr ⟨fun c first => by cases first; rfl, fun c last => by
      have final : ('*' :: '*' :: (key ++ ['*', '*', ':'])).getLast? = some ':' :=
        List.getLast?_append_of_ne_nil ('*' :: '*' :: key) (by simp)
      rw [final] at last
      cases last
      rfl⟩
  let shown := trimEnd (' ' :: value)
  have cut
      : cutFirst? ['*', '*'] (key ++ (['*', '*'] ++ ':' :: shown)) = some (key, ':' :: shown) := by
    rw [cutFirst?_eq_some_iff (by simp)]
    intro inside
    have twice := inside.sublist.count_le '*'
    simp [List.count_eq_zero.mpr noStar] at twice
  have behind : trim shown = trim value := by
    rw [trim_trimEnd, trim_space_cons]
  have whole : trim (written key value) = ['*', '*'] ++ (key ++ (['*', '*'] ++ ':' :: shown)) := by
    rw [written, trim_append_of_trimmed trimmed (by simp)]
    simp [shown]
  have colon : strip? [':'] (trimStart (':' :: shown)) = some shown := by
    rw [trimStart_cons (by decide)]
    exact strip?_append [':'] _
  rw [ofSegment?, whole, strip?_append]
  simp only [Option.bind_eq_bind, Option.bind_some, cut, colon, behind]
  rfl

/-- Fields between bars are read one by one. -/
theorem ofLine_written {fields : List (List Char × List Char)} (nonempty : fields ≠ [])
    (plain : ∀ field ∈ fields, '*' ∉ field.1 ∧ '|' ∉ field.1 ∧ '|' ∉ field.2)
    : ofLine (String.ofList
          (join [' ', '|', ' '] (fields.map (fun field => written field.1 field.2))))
      = fields.map (fun field =>
          ⟨String.ofList ((trim field.1).map Char.toLower), String.ofList (trim field.2)⟩) := by
  let texts := fields.map (fun field => written field.1 field.2)
  have noBar : ∀ text ∈ texts, '|' ∉ text := by
    intro text member
    obtain ⟨field, own, rfl⟩ := List.mem_map.mp member
    obtain ⟨-, inKey, inValue⟩ := plain field own
    simp [written, inKey, inValue]
  have pieces
      : (splitWhere (· == '|') ([] ++ join ([' '] ++ '|' :: [' ']) texts)).map trim
        = texts.map trim :=
    map_trim_splitWhere_join (by decide) (by decide) (by decide) (by simpa [texts] using nonempty)
      noBar (by decide)
  have trimmed (segments : List (List Char))
      : segments.filterMap ofSegment? = (segments.map trim).filterMap ofSegment? := by
    rw [List.filterMap_map]
    exact List.filterMap_congr fun segment _ => (ofSegment?_trim segment).symm
  calc
    ofLine (String.ofList (join [' ', '|', ' '] texts))
      = (splitWhere (· == '|') (join [' ', '|', ' '] texts)).filterMap ofSegment? := by
        rw [ofLine, String.toList_ofList]
    _ = (texts.map trim).filterMap ofSegment? := by
        rw [trimmed]
        exact congrArg (List.filterMap ofSegment?) pieces
    _ = fields.filterMap (fun field => ofSegment? (written field.1 field.2)) := by
        rw [← trimmed, List.filterMap_map]
        rfl
    _ = fields.map (fun field =>
          ⟨String.ofList ((trim field.1).map Char.toLower), String.ofList (trim field.2)⟩) := by
        rw [← List.filterMap_eq_map]
        exact List.filterMap_congr fun field own => ofSegment?_written (plain field own).1 field.2

end Field

/-- What may stand in a list of targets. -/
@[mk_iff]
structure IsTarget (target : String) : Prop where
  nonempty : target.toList ≠ []
  notNone : target.toList ≠ ['-']
  trimmed : Trimmed target.toList
  plain : ',' ∉ target.toList ∧ '|' ∉ target.toList

instance (target : String) : Decidable (IsTarget target) :=
  decidable_of_iff _ (isTarget_iff target).symm

/-- Targets with commas between them, or a hyphen for none. -/
def targetText (targets : List String) : List Char :=
  if targets = [] then ['-'] else join [',', ' '] (targets.map String.toList)

section Targets

variable {targets : List String}

theorem trimmed_targetText (fit : ∀ target ∈ targets, IsTarget target)
    : Trimmed (targetText targets) := by
  rw [targetText]
  split
  · decide
  · exact trimmed_join _ (List.forall_mem_map.mpr fun target own => (fit target own).nonempty)
      (List.forall_mem_map.mpr fun target own => (fit target own).trimmed)

theorem noBar_targetText (fit : ∀ target ∈ targets, IsTarget target)
    : '|' ∉ targetText targets := by
  rw [targetText]
  split
  · decide
  · exact not_mem_join (by decide)
      (List.forall_mem_map.mpr fun target own => (fit target own).plain.2)

/-- The targets that were listed are read. -/
theorem targetList_targetText (fit : ∀ target ∈ targets, IsTarget target)
    : targetList (String.ofList (targetText targets)) = targets := by
  by_cases none : targets = []
  · rw [none]
    rfl
  · let texts := targets.map String.toList
    have trimmed : ∀ text ∈ texts, trim text = id text :=
      List.forall_mem_map.mpr fun target own => (fit target own).trimmed
    have whole : texts.map trim = texts := (List.map_congr_left trimmed).trans (List.map_id texts)
    have kept : ∀ text ∈ texts, (text ≠ [] && text ≠ ['-']) = true :=
      List.forall_mem_map.mpr fun target own => by
        simpa using And.intro (fit target own).nonempty (fit target own).notNone
    have pieces
        : (splitWhere (· == ',') ([] ++ join ([] ++ ',' :: [' ']) texts)).map trim
          = texts.map trim :=
      map_trim_splitWhere_join (by decide) (by decide) (by decide) (by simpa [texts] using none)
        (List.forall_mem_map.mpr fun target own => (fit target own).plain.1)
        (by decide)
    rw [List.nil_append, List.nil_append] at pieces
    rw [targetText, if_neg none, targetList, String.toList_ofList, pieces, whole,
      List.filter_eq_self.mpr kept, List.map_map]
    simp

end Targets

-----------------------------------------------------------------------------------------
-- Headings
-----------------------------------------------------------------------------------------

namespace Scheme

variable {scheme : Scheme}

/-- An identifier is taken whole off a text that goes on with no further digit. -/
theorem takeId?_append (positive : scheme.idDigits ≠ 0) {id : List Char}
    (isId : scheme.takeId? id = some (id, [])) {rest : List Char}
    (apart : ∀ c ∈ rest.head?, isDecimalDigit c = false)
    : scheme.takeId? (id ++ rest) = some (id, rest) := by
  obtain ⟨code, digits, rfl, listed, admits⟩ := admits_of_takeId? positive isId
  have whole : scheme.idText code digits ++ rest
      = scheme.idPrefix.toList ++ ['-'] ++ code :: (digits ++ rest) := by
    simp [idText]
  rw [takeId?, takePrefixed?_eq_some_iff.mpr ⟨_, whole, listed, admits.takeDigits?_append apart⟩]
  rfl

theorem trimStart_idText (solid : ∀ c ∈ scheme.idPrefix.toList, c.isAlphanum = true) (code : Char)
    (digits rest : List Char)
    : trimStart (scheme.idText code digits ++ rest) = scheme.idText code digits ++ rest := by
  rw [idText]
  cases start : scheme.idPrefix.toList with
  | nil => exact trimStart_cons (by decide) _
  | cons c more =>
      exact trimStart_cons (isBlank_of_isAlphanum (solid c (start ▸ List.mem_cons_self))) _

end Scheme

namespace Heading

/-- A heading with this many number signs. -/
def written (signs : Nat) (id title : String) : List Char :=
  List.replicate signs '#' ++ ' ' :: (id.toList ++ ':' :: ' ' :: title.toList)

theorem afterSigns?_replicate {signs : Nat} (some : 1 ≤ signs) (few : signs ≤ 6) {s : List Char}
    (starts : trimStart s = s)
    : afterSigns? (List.replicate signs '#' ++ ' ' :: s) = .some s := by
  let signs' := List.replicate signs '#'
  have cut
      : (signs' ++ ' ' :: s).takeWhile (· == '#') = signs'
        ∧ (signs' ++ ' ' :: s).dropWhile (· == '#') = ' ' :: s :=
    takeWhile_dropWhile_append (fun c member => by simp [List.eq_of_mem_replicate member])
      (fun c first => by
        cases first
        rfl)
  have blank : trimStart (' ' :: s) = s :=
    (trimStart_append (show Blanks [' '] by decide) s).trans starts
  rw [afterSigns?, cut.1, cut.2]
  simp only [signs', List.length_replicate, some, few, true_and,
    show isBlank ' ' = true from rfl, if_true, blank]

theorem requirement?_written {scheme : Scheme} (positive : scheme.idDigits ≠ 0)
    (solid : ∀ c ∈ scheme.idPrefix.toList, c.isAlphanum = true) {signs : Nat} (some : 1 ≤ signs)
    (few : signs ≤ 6) {id title : String}
    (isId : scheme.takeId? id.toList = .some (id.toList, [])) (trimmed : Trimmed title.toList)
    (plain : '\n' ∉ title.toList)
    : requirement? scheme (String.ofList (written signs id title)) = .some ⟨id, title⟩ := by
  let rest := ':' :: ' ' :: title.toList
  have starts : trimStart (id.toList ++ rest) = id.toList ++ rest := by
    obtain ⟨code, digits, text, -⟩ := Scheme.admits_of_takeId? positive isId
    rw [text]
    exact Scheme.trimStart_idText solid code digits _
  have taken : scheme.takeId? (id.toList ++ rest) = .some (id.toList, rest) :=
    Scheme.takeId?_append positive isId fun c first => by
      cases first
      rfl
  have colon : afterColon? rest = .some (' ' :: title.toList) := by
    rw [afterColon?, trimStart_cons (by decide)]
    exact strip?_append [':'] _
  have line : singleLine? (' ' :: title.toList) = .some title.toList := by
    have blank : trim (' ' :: title.toList) = title.toList :=
      (trim_space_cons title.toList).trans trimmed
    rw [singleLine?_of_plain (by simpa using plain), blank]
  rw [requirement?, ofParts?, parts?, String.toList_ofList, written,
    afterSigns?_replicate some few starts]
  simp only [Option.bind_eq_bind, Option.bind_some, Option.pure_def, taken, colon, line,
    String.ofList_toList]

end Heading

-----------------------------------------------------------------------------------------
-- Assertions
-----------------------------------------------------------------------------------------

/-- What may stand behind the letter of an assertion. -/
@[mk_iff]
structure IsStatement (text : String) : Prop where
  nonempty : text.toList ≠ []
  trimmed : Trimmed text.toList
  oneLine : '\n' ∉ text.toList

instance (text : String) : Decidable (IsStatement text) :=
  decidable_of_iff _ (isStatement_iff text).symm

/-- An assertion with this letter and text. -/
def Item.written (letter : Char) (text : String) : List Char :=
  letter :: '.' :: ' ' :: text.toList

theorem Item.assertion?_written {letter : Char} (upper : letter.isUpper = true) {text : String}
    (fits : IsStatement text)
    : assertion? (String.ofList (written letter text)) = some (letter, text) := by
  have solid : isBlank letter = false :=
    isBlank_of_isAlphanum (by simp [Char.isAlphanum, Char.isAlpha, upper])
  have line : Heading.singleLine? text.toList = some text.toList := by
    rw [Heading.singleLine?_of_plain fits.oneLine, show trim text.toList = _ from fits.trimmed]
  have read : text? ('.' :: ' ' :: text.toList) = some text.toList := by
    rw [text?, line]
    cases start : text.toList with
    | nil => exact absurd start fits.nonempty
    | cons c rest => rfl
  rw [assertion?, String.toList_ofList, written, trimStart_cons solid]
  simp only [upper, if_true, read, Option.map_some, String.ofList_toList]

-----------------------------------------------------------------------------------------
-- Closing markers
-----------------------------------------------------------------------------------------

namespace ClosingMarker

/-- What stands on a closing marker up to its name. -/
def headText (name : String) : List Char :=
  "*End*".toList ++ ' ' :: '*' :: (name.toList ++ ['*'])

/-- What stands behind the name, if there is a hash. -/
def hashText (hash? : Option String) : List Char :=
  hash?.elim [] (fun hash => [' ', '|', ' '] ++ (key ++ ([':', ' '] ++ hash.toList)))

/-- A closing marker with this name and, perhaps, a hash. -/
def written (name : String) (hash? : Option String) : List Char :=
  headText name ++ hashText hash?

theorem ofLine?_written {name : String} (some : name.toList ≠ []) (noStar : '*' ∉ name.toList)
    {hash? : Option String} (solid : ∀ hash ∈ hash?, Solid hash.toList)
    : ofLine? (String.ofList (written name hash?)) = .some ⟨name, hash?⟩ := by
  have isHead : Head name.toList (headText name) :=
    ⟨' ', [], rfl, by decide, noStar, some, rfl⟩
  have split : (String.ofList (written name hash?)).toList = headText name ++ hashText hash? :=
    String.toList_ofList
  cases hash? with
  | none =>
      rw [ofLine?_of_head isHead split, String.ofList_toList]
      rfl
  | some hash =>
      have stored : storedHash? (hashText (.some hash)) = .some hash.toList := by
        refine storedHash?_eq_some_iff.mpr ⟨[' ', '|', ' '], [':', ' '], [], ?_, ?_, by decide,
          solid hash rfl, ?_⟩
        · exact ⟨[' '], [' '], by decide, by decide, rfl⟩
        · exact ⟨[], [' '], by decide, by decide, rfl⟩
        · rw [List.append_nil]
          rfl
      simpa only [String.ofList_toList] using (ofLine?_hash_iff isHead split).mpr stored

end ClosingMarker

end Traceability
