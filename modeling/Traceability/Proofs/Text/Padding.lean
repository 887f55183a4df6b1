import Mathlib
import Traceability.Proofs.Text.Search
import Traceability.Text.Caseless

/-! Texts with spaces and tabs after them.
A reader of a line ignores what is blank at the end if each of its steps does: what it takes off
the front is the same, and what is left has the same spaces and tabs after it.
-/

namespace Traceability.Text

/-- Spaces and tabs. -/
structure Padding where
  chars : List Char
  spaceOrTab : ∀ c ∈ chars, c = ' ' ∨ c = '\t'

/-- A text and the text with spaces and tabs after it. -/
inductive Padded : List Char → List Char → Prop
  | nil : Padded [] []
  | padding {c t} (spaceOrTab : c = ' ' ∨ c = '\t') (further : Padded [] t) : Padded [] (c :: t)
  | cons (c) {s t} (rest : Padded s t) : Padded (c :: s) (c :: t)

/-- Readers that took the same off a text and off the text with spaces and tabs after it. -/
def SameFront {α : Type} (found other : α × List Char) : Prop :=
  other.1 = found.1 ∧ Padded found.2 other.2

/-- The test fails for spaces and tabs. -/
def Skips (p : Char → Bool) : Prop :=
  p ' ' = false ∧ p '\t' = false

/-- A word has neither spaces nor tabs. -/
def Unpadded (word : List Char) : Prop :=
  ' ' ∉ word ∧ '\t' ∉ word

instance (p : Char → Bool) : Decidable (Skips p) :=
  inferInstanceAs (Decidable (_ ∧ _))

instance (word : List Char) : Decidable (Unpadded word) :=
  inferInstanceAs (Decidable (_ ∧ _))

-----------------------------------------------------------------------------------------
-- Padding
-----------------------------------------------------------------------------------------

namespace Padding

variable (padding : Padding)

theorem blanks : Blanks padding.chars := by
  intro c member
  rcases padding.spaceOrTab c member with rfl | rfl <;> rfl

theorem eq_false {p : Char → Bool} (skips : Skips p) : ∀ c ∈ padding.chars, p c = false := by
  intro c member
  rcases padding.spaceOrTab c member with rfl | rfl
  · exact skips.1
  · exact skips.2

theorem not_mem {word : List Char} (unpadded : Unpadded word)
    : ∀ c ∈ padding.chars, c ∉ word := by
  intro c member
  rcases padding.spaceOrTab c member with rfl | rfl
  · exact unpadded.1
  · exact unpadded.2

theorem takeWhile_eq_nil {p : Char → Bool} (skips : Skips p)
    : padding.chars.takeWhile p = [] := by
  cases written : padding.chars with
  | nil => rfl
  | cons c rest =>
      rw [List.takeWhile_cons_of_neg]
      rw [padding.eq_false skips c (written ▸ List.mem_cons_self)]
      exact Bool.false_ne_true

/-- What is left of spaces and tabs are spaces and tabs. -/
def dropWhile (p : Char → Bool) : Padding where
  chars := padding.chars.dropWhile p
  spaceOrTab c member := padding.spaceOrTab c ((List.dropWhile_suffix p).mem member)

end Padding

-----------------------------------------------------------------------------------------
-- Readers that may fail
-----------------------------------------------------------------------------------------

section Options

variable {α β γ δ : Type} {r : α → β → Prop} {o : Option α} {p : Option β}

theorem rel_bind {q : γ → δ → Prop} {f : α → Option γ} {g : β → Option δ} (rel : Option.Rel r o p)
    (step : ∀ a b, r a b → Option.Rel q (f a) (g b))
    : Option.Rel q (o.bind f) (p.bind g) := by
  cases rel with
  | some related => exact step _ _ related
  | none => exact .none

theorem rel_map {q : γ → δ → Prop} {f : α → γ} {g : β → δ} (rel : Option.Rel r o p)
    (step : ∀ a b, r a b → q (f a) (g b))
    : Option.Rel q (o.map f) (p.map g) := by
  cases rel with
  | some related => exact .some (step _ _ related)
  | none => exact .none

theorem isSome_eq_of_rel (rel : Option.Rel r o p) : p.isSome = o.isSome := by
  cases rel <;> rfl

theorem bind_eq_of_rel {f : α → Option γ} {g : β → Option γ} (rel : Option.Rel r o p)
    (step : ∀ a b, r a b → g b = f a)
    : p.bind g = o.bind f := by
  cases rel with
  | some related => exact step _ _ related
  | none => rfl

/-- A reader that finds nothing in the empty text need not be told that there is no text. -/
theorem bind_eq_getD {f : List Char → Option α} (nothing : f [] = none) (o : Option (List Char))
    : o.bind f = f (o.getD []) := by
  cases o with
  | none => exact nothing.symm
  | some s => rfl

end Options

-----------------------------------------------------------------------------------------
-- Steps of readers
-----------------------------------------------------------------------------------------

theorem padded_append (s : List Char) (padding : Padding) : Padded s (s ++ padding.chars) := by
  induction s with
  | nil =>
      obtain ⟨chars, spaceOrTab⟩ := padding
      induction chars with
      | nil => exact .nil
      | cons c rest ih =>
          exact .padding (spaceOrTab c List.mem_cons_self)
            (ih (fun d member => spaceOrTab d (List.mem_cons_of_mem c member)))
  | cons c s ih => exact .cons c ih

theorem Padded.exists_padding {s t : List Char} (padded : Padded s t)
    : ∃ padding : Padding, t = s ++ padding.chars := by
  induction padded with
  | nil => exact ⟨⟨[], List.forall_mem_nil _⟩, rfl⟩
  | @padding c t spaceOrTab further ih =>
      obtain ⟨padding, rfl⟩ := ih
      exact ⟨⟨c :: padding.chars, List.forall_mem_cons.mpr ⟨spaceOrTab, padding.spaceOrTab⟩⟩, rfl⟩
  | cons c rest ih =>
      obtain ⟨padding, rfl⟩ := ih
      exact ⟨padding, rfl⟩

theorem Padded.refl (s : List Char) : Padded s s := by
  induction s with
  | nil => exact .nil
  | cons c s ih => exact .cons c ih

namespace Padded

variable {s t : List Char}

theorem dropWhile (padded : Padded s t) (p : Char → Bool)
    : Padded (s.dropWhile p) (t.dropWhile p) := by
  obtain ⟨padding, rfl⟩ := padded.exists_padding
  rw [List.dropWhile_append]
  split
  · next all =>
      rw [List.isEmpty_iff.mp all]
      exact padded_append [] (padding.dropWhile p)
  · exact padded_append _ padding

theorem takeWhile_eq (padded : Padded s t) {p : Char → Bool} (skips : Skips p)
    : t.takeWhile p = s.takeWhile p := by
  obtain ⟨padding, rfl⟩ := padded.exists_padding
  rw [List.takeWhile_append]
  split
  · next all =>
      rw [padding.takeWhile_eq_nil skips, List.append_nil]
      exact (List.takeWhile_prefix p).eq_of_length all |>.symm
  · rfl

/-- A run that something ends is the same, whatever may belong to it. -/
theorem takeWhile_eq_of_ended (padded : Padded s t) {p : Char → Bool} (ended : s.dropWhile p ≠ [])
    : t.takeWhile p = s.takeWhile p := by
  obtain ⟨padding, rfl⟩ := padded.exists_padding
  rw [List.takeWhile_append, if_neg]
  intro all
  have whole := congrArg List.length (List.takeWhile_append_dropWhile (p := p) (l := s))
  rw [List.length_append, all] at whole
  exact ended (List.length_eq_zero_iff.mp (by omega))

theorem trimStart (padded : Padded s t) : Padded (Text.trimStart s) (Text.trimStart t) :=
  padded.dropWhile isBlank

theorem trimEnd_eq (padded : Padded s t) : Text.trimEnd t = Text.trimEnd s := by
  obtain ⟨padding, rfl⟩ := padded.exists_padding
  exact trimEnd_append_blanks padding.blanks s

theorem trim_eq (padded : Padded s t) : trim t = trim s :=
  (padded.dropWhile isBlank).trimEnd_eq

theorem all_eq (padded : Padded s t) : t.all isBlank = s.all isBlank := by
  obtain ⟨padding, rfl⟩ := padded.exists_padding
  exact all_append_blanks padding.blanks s

theorem contains_eq (padded : Padded s t) {word : List Char} (nonempty : word ≠ [])
    (unpadded : Unpadded word)
    : contains word t = contains word s := by
  obtain ⟨padding, rfl⟩ := padded.exists_padding
  exact contains_append nonempty (padding.not_mem unpadded) s

theorem contains_feed_eq (padded : Padded s t) : t.contains '\n' = s.contains '\n' := by
  obtain ⟨padding, rfl⟩ := padded.exists_padding
  have none : '\n' ∉ padding.chars := by
    intro member
    rcases padding.spaceOrTab _ member with same | same <;> exact absurd same (by decide)
  simp [none]

/-- A run that spaces and tabs do not end starts with what it started with. -/
theorem drop (padded : Padded s t) {n : Nat} (within : n ≤ s.length)
    : Padded (s.drop n) (t.drop n) := by
  obtain ⟨padding, rfl⟩ := padded.exists_padding
  rw [List.drop_append_of_le_length within]
  exact padded_append _ padding

end Padded

-----------------------------------------------------------------------------------------
-- Words at the start
-----------------------------------------------------------------------------------------

/-- The rest of a text that starts with a word, where characters are compared by their images. -/
def stripBy (f : Char → Char) (word s : List Char) : Option (List Char) :=
  if word.map f <+: s.map f then some (s.drop word.length) else none

theorem strip?_eq_stripBy (word s : List Char) : strip? word s = stripBy id word s := by
  induction word generalizing s with
  | nil => simp [strip?, stripBy]
  | cons w ws ih =>
      cases s with
      | nil => simp [strip?, stripBy]
      | cons c cs =>
          rw [strip?, ih]
          by_cases same : w = c
          · simp [stripBy, same]
          · simp [stripBy, same]

theorem stripFolded?_eq_stripBy (word s : List Char)
    : stripFolded? word s = stripBy simpleFold word s := by
  induction word generalizing s with
  | nil => simp [stripFolded?, stripBy]
  | cons w ws ih =>
      cases s with
      | nil => simp [stripFolded?, stripBy]
      | cons c cs =>
          rw [stripFolded?, ih]
          by_cases same : simpleFold w = simpleFold c
          · simp [stripBy, same, List.cons_prefix_cons]
          · simp [stripBy, same, List.cons_prefix_cons]

theorem stripLetters?_eq_stripBy (word s : List Char)
    : stripLetters? word s = stripBy Char.toLower word s := by
  induction word generalizing s with
  | nil => simp [stripLetters?, stripBy]
  | cons w ws ih =>
      cases s with
      | nil => simp [stripLetters?, stripBy]
      | cons c cs =>
          rw [stripLetters?, ih]
          by_cases same : w.toLower = c.toLower
          · simp [stripBy, same, List.cons_prefix_cons]
          · simp [stripBy, same, List.cons_prefix_cons]

/-- The last character of a word is told from spaces and tabs. -/
def EndsApart (f : Char → Char) (word : List Char) : Prop :=
  ∀ last ∈ word.getLast?, f last ≠ f ' ' ∧ f last ≠ f '\t'

namespace Padded

variable {s t : List Char}

/-- An occurrence of a word at the start ends before the spaces and tabs. -/
theorem prefix_iff (padded : Padded s t) {f : Char → Char} {word : List Char}
    (apart : EndsApart f word)
    : word.map f <+: t.map f ↔ word.map f <+: s.map f := by
  obtain ⟨padding, rfl⟩ := padded.exists_padding
  rw [List.map_append]
  refine ⟨?_, fun occurs => occurs.trans (List.prefix_append _ _)⟩
  intro ⟨rest, whole⟩
  rcases List.append_eq_append_iff.mp whole with ⟨more, inside, -⟩ | ⟨more, reaches, left⟩
  · exact ⟨more, inside.symm⟩
  · rcases List.eq_nil_or_concat more with none | ⟨stem, final, some⟩
    · exact ⟨[], by simpa [none] using reaches⟩
    · -- The last character of the word would be a space or a tab.
      have ends : (word.getLast?).map f = Option.some final := by
        rw [← List.getLast?_map, reaches, some, List.concat_eq_append, ← List.append_assoc,
          List.getLast?_concat]
      have member : final ∈ padding.chars.map f := by
        rw [left, some]
        simp
      obtain ⟨last, own, rfl⟩ := Option.map_eq_some_iff.mp ends
      obtain ⟨c, isPadding, same⟩ := List.mem_map.mp member
      obtain ⟨space, tab⟩ := apart last own
      rcases padding.spaceOrTab c isPadding with rfl | rfl
      · exact absurd same.symm space
      · exact absurd same.symm tab

theorem stripBy (padded : Padded s t) {f : Char → Char} {word : List Char}
    (apart : EndsApart f word)
    : Option.Rel Padded (Text.stripBy f word s) (Text.stripBy f word t) := by
  rw [Text.stripBy, Text.stripBy]
  by_cases starts : word.map f <+: s.map f
  · have within : word.length ≤ s.length := by
      simpa only [List.length_map] using starts.length_le
    rw [if_pos starts, if_pos ((padded.prefix_iff apart).mpr starts)]
    exact .some (padded.drop within)
  · rw [if_neg starts, if_neg (fun also => starts ((padded.prefix_iff apart).mp also))]
    exact .none

theorem strip? (padded : Padded s t) {word : List Char} (unpadded : Unpadded word)
    : Option.Rel Padded (Text.strip? word s) (Text.strip? word t) := by
  rw [strip?_eq_stripBy, strip?_eq_stripBy]
  refine padded.stripBy (fun last own => ?_)
  have member : last ∈ word := List.mem_of_getLast? own
  exact ⟨fun same : last = ' ' => unpadded.1 (same ▸ member),
    fun same : last = '\t' => unpadded.2 (same ▸ member)⟩

/-- What stands before the first occurrence of a word is the same. -/
theorem cutFirst? (padded : Padded s t) {word : List Char} (nonempty : word ≠ [])
    (unpadded : Unpadded word)
    : Option.Rel SameFront (Text.cutFirst? word s) (Text.cutFirst? word t) := by
  induction padded with
  | nil =>
      rw [Text.cutFirst?, if_neg nonempty]
      exact .none
  | @padding c t spaceOrTab further ih =>
      have here : Text.strip? word (c :: t) = none := by
        have front := (Padded.padding spaceOrTab further).strip? unpadded
        have start : Text.strip? word [] = none := by
          obtain ⟨w, ws, rfl⟩ := List.exists_cons_of_ne_nil nonempty
          rfl
        rw [start] at front
        generalize Text.strip? word (c :: t) = found at front
        cases front
        rfl
      rw [cutFirst?_cons here]
      rw [Text.cutFirst?, if_neg nonempty] at ih ⊢
      generalize Text.cutFirst? word t = found at ih
      cases ih
      exact .none
  | @cons c s t rest ih =>
      have first := (Padded.cons c rest).strip? unpadded
      rw [Text.cutFirst?, Text.cutFirst?]
      generalize Text.strip? word (c :: s) = found at first ⊢
      generalize Text.strip? word (c :: t) = other at first ⊢
      cases first with
      | some rest => exact .some ⟨rfl, rest⟩
      | none => exact rel_map ih (fun _ _ parts => ⟨congrArg (c :: ·) parts.1, parts.2⟩)

/-- Only the last piece has the spaces and tabs after it. -/
theorem splitWhere (padded : Padded s t) {p : Char → Bool} (skips : Skips p)
    : List.Forall₂ Padded (Text.splitWhere p s) (Text.splitWhere p t) := by
  induction padded with
  | nil => exact .cons .nil .nil
  | @padding c t spaceOrTab further ih =>
      have fails : p c = false := by
        rcases spaceOrTab with rfl | rfl
        · exact skips.1
        · exact skips.2
      rw [Text.splitWhere] at ih ⊢
      rw [Text.splitWhere, fails]
      generalize Text.splitWhere p t = found at ih
      cases ih with
      | cons first rest =>
          cases rest
          exact .cons (.padding spaceOrTab first) .nil
  | @cons c s t rest ih =>
      rw [Text.splitWhere, Text.splitWhere]
      split
      · exact .cons .nil ih
      · generalize Text.splitWhere p s = found at ih ⊢
        generalize Text.splitWhere p t = other at ih ⊢
        cases ih with
        | nil => exact .cons (Padded.refl [c]) .nil
        | cons first rest => exact .cons (first.cons c) rest

end Padded

theorem splitWhere_ne_nil (p : Char → Bool) (s : List Char) : splitWhere p s ≠ [] := by
  cases s with
  | nil => exact List.cons_ne_nil _ _
  | cons c cs =>
      rw [splitWhere]
      split
      · exact List.cons_ne_nil _ _
      · split <;> exact List.cons_ne_nil _ _

/-- Separators after a text cut off empty pieces. -/
theorem splitWhere_append {p : Char → Bool} {separators : List Char}
    (separate : ∀ c ∈ separators, p c = true) (s : List Char)
    : splitWhere p (s ++ separators)
      = splitWhere p s ++ List.replicate separators.length [] := by
  induction s with
  | nil =>
      rw [List.nil_append]
      induction separators with
      | nil => rfl
      | cons c rest ih =>
          have first : splitWhere p (c :: rest) = [] :: splitWhere p rest := by
            rw [splitWhere, if_pos (separate c List.mem_cons_self)]
          rw [first, ih (fun d member => separate d (List.mem_cons_of_mem c member))]
          rfl
  | cons c cs ih =>
      rw [List.cons_append, splitWhere, splitWhere, ih]
      split
      · rfl
      · cases pieces : splitWhere p cs with
        | nil => exact absurd pieces (splitWhere_ne_nil p cs)
        | cons first rest => rfl

-----------------------------------------------------------------------------------------
-- Keywords
-----------------------------------------------------------------------------------------

/-- The code points of blanks. -/
def blankCodes : List Nat :=
  List.range' 9 5 ++ [0x20, 0x85, 0xA0, 0x1680] ++ List.range' 0x2000 11
    ++ [0x2028, 0x2029, 0x202F, 0x205F, 0x3000]

theorem isBlank_iff_mem_blankCodes {c : Char} : isBlank c = true ↔ c.toNat ∈ blankCodes := by
  simp only [isBlank, blankCodes, Bool.or_eq_true, Bool.and_eq_true, decide_eq_true_eq, beq_iff_eq,
    List.mem_append, List.mem_range'_1, List.mem_cons, List.not_mem_nil, or_false]
  omega

/-- No ASCII letter or digit is blank. -/
theorem isBlank_of_isAlphanum {c : Char} (alphanumeric : c.isAlphanum = true)
    : isBlank c = false := by
  have number : (48 ≤ c.toNat ∧ c.toNat ≤ 57) ∨ (65 ≤ c.toNat ∧ c.toNat ≤ 90)
      ∨ (97 ≤ c.toNat ∧ c.toNat ≤ 122) := by
    simp only [Char.isAlphanum, Char.isAlpha, Char.isUpper, Char.isLower, Char.isDigit,
      Bool.or_eq_true, Bool.and_eq_true, decide_eq_true_eq] at alphanumeric
    rcases alphanumeric with (upper | lower) | digit
    · exact .inr (.inl upper)
    · exact .inr (.inr lower)
    · exact .inl digit
  simp only [isBlank, Bool.or_eq_false_iff, Bool.and_eq_false_iff, decide_eq_false_iff_not,
    beq_eq_false_iff_ne]
  omega

/-- Folding neither makes a blank of another character nor changes a blank. Witness: no run of the
folding has a blank in it, and none has one where it goes. -/
theorem isBlank_simpleFold (c : Char) : isBlank (simpleFold c) = isBlank c := by
  have apart
      : ∀ run ∈ foldingRuns, ∀ code ∈ blankCodes,
          ¬ (run.1 ≤ code ∧ code ≤ run.2.1)
          ∧ ¬ ((run.1 : Int) + run.2.2.2 ≤ code ∧ (code : Int) ≤ run.2.1 + run.2.2.2) := by
    decide +kernel
  rw [simpleFold, foldPoint]
  split
  · next first last step distance found =>
      have own := apart _ (List.mem_of_find?_eq_some found)
      have inside := List.find?_some found
      simp only [Bool.and_eq_true, decide_eq_true_eq] at inside own
      have before : isBlank c = false := by
        rw [← Bool.not_eq_true, isBlank_iff_mem_blankCodes]
        exact fun blank => (own _ blank).1 inside.1
      rw [before, ← Bool.not_eq_true, isBlank_iff_mem_blankCodes]
      intro blank
      rw [Char.toNat_ofNat] at blank
      split at blank
      · have positive : 0 ∉ blankCodes := by decide
        have reached : (((c.toNat : Int) + distance).toNat : Int) = c.toNat + distance := by
          refine Int.toNat_of_nonneg (Int.not_lt.mp (fun negative => positive ?_))
          rwa [Int.toNat_of_nonpos (Int.le_of_lt negative)] at blank
        refine (own _ blank).2 ⟨?_, ?_⟩ <;> omega
      · exact absurd blank (by decide)
  · rw [Char.ofNat_toNat]

theorem isBlank_of_simpleFold {c : Char} (folds : simpleFold c = ' ' ∨ simpleFold c = '\t')
    : isBlank c = true := by
  rw [← isBlank_simpleFold]
  rcases folds with same | same <;> rw [same] <;> rfl

/-- The last character of a word is not blank. -/
def EndsSolid (word : List Char) : Prop :=
  ∀ last ∈ word.getLast?, isBlank last = false

theorem EndsSolid.simpleFold {word : List Char} (solid : EndsSolid word)
    : EndsApart simpleFold word := by
  have fixed : Text.simpleFold ' ' = ' ' ∧ Text.simpleFold '\t' = '\t' := by decide +kernel
  intro last own
  rw [fixed.1, fixed.2]
  refine ⟨fun same => ?_, fun same => ?_⟩
  · exact Bool.noConfusion ((solid last own).symm.trans (isBlank_of_simpleFold (Or.inl same)))
  · exact Bool.noConfusion ((solid last own).symm.trans (isBlank_of_simpleFold (Or.inr same)))

/-- What is the same of the capital letters and the small ones is the same of all characters and
their lower cases. -/
theorem apply_toLower {α : Type} {f : Char → α}
    (capitals : ∀ n ∈ List.range' 65 26, f (Char.ofNat (n + 32)) = f (Char.ofNat n)) (c : Char)
    : f c.toLower = f c := by
  by_cases upper : c.isUpper = true
  · have bounds : 65 ≤ c.toNat ∧ c.toNat ≤ 90 := of_decide_eq_true upper
    have same := capitals c.toNat (List.mem_range'_1.mpr (by omega))
    rw [Char.toLower_eq_of_isUpper upper, same, Char.ofNat_toNat]
  · rw [Char.toLower_eq_of_not_isUpper upper]

theorem isBlank_toLower (c : Char) : isBlank c.toLower = isBlank c :=
  apply_toLower (by decide +kernel) c

theorem EndsSolid.toLower {word : List Char} (solid : EndsSolid word)
    : EndsApart Char.toLower word := by
  intro last own
  have solid : isBlank last.toLower = false := (isBlank_toLower last).trans (solid last own)
  exact ⟨fun same => absurd (same ▸ solid) (by decide),
    fun same => absurd (same ▸ solid) (by decide)⟩

/-- A word without the blanks behind it does not end in a blank. -/
theorem endsSolid_trimEnd (s : List Char) : EndsSolid (trimEnd s) := by
  intro last own
  rw [trimEnd, dropEndWhile, List.getLast?_reverse] at own
  have stopped := List.head?_dropWhile_not isBlank s.reverse
  rw [own] at stopped
  simpa using stopped

theorem endsSolid_trim (s : List Char) : EndsSolid (trim s) :=
  endsSolid_trimEnd (s.dropWhile isBlank)

end Traceability.Text
