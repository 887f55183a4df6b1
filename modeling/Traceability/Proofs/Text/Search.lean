import Mathlib.Data.List.DropRight
import Mathlib.Data.List.Infix
import Mathlib.Data.List.TakeWhile
import Traceability.Text.Blank
import Traceability.Text.Search

/-! What searches find.
A search cuts a text into what stands before the word, the word, and what stands after it. A
word is not found across characters that it does not have. Texts that are joined in groups and
then joined again are joined.
-/

namespace Traceability.Text

-----------------------------------------------------------------------------------------
-- Blanks
-----------------------------------------------------------------------------------------

/-- A property of the few characters of a text, checked one by one. The instance for all
characters would try each character there is. -/
theorem forall_mem_of_all {p : Char → Prop} [DecidablePred p] {s : List Char}
    (checked : s.all (fun c => decide (p c)) = true)
    : ∀ c ∈ s, p c :=
  fun c member => of_decide_eq_true (List.all_eq_true.mp checked c member)

/-- All characters are blank. -/
def Blanks (s : List Char) : Prop :=
  ∀ c ∈ s, isBlank c = true

instance (s : List Char) : Decidable (Blanks s) :=
  decidable_of_iff (s.all isBlank = true) List.all_eq_true

theorem trimStart_append {blanks : List Char} (h : Blanks blanks) (s : List Char)
    : trimStart (blanks ++ s) = trimStart s := by
  rw [trimStart, List.dropWhile_append_of_pos h, trimStart]

theorem trimStart_cons {c : Char} (h : isBlank c = false) (s : List Char)
    : trimStart (c :: s) = c :: s := by
  simp [trimStart, h]

/-- A text is the blanks at its start and what is left of it without them. -/
theorem exists_blanks_trimStart (s : List Char)
    : ∃ blanks, Blanks blanks ∧ s = blanks ++ trimStart s := by
  refine ⟨s.takeWhile isBlank, ?_, (List.takeWhile_append_dropWhile).symm⟩
  intro c member
  exact List.mem_takeWhile_imp member

theorem trimEnd_append {blanks : List Char} (h : Blanks blanks) {last : Char}
    (solid : isBlank last = false) (s : List Char)
    : trimEnd (s ++ last :: blanks) = s ++ [last] := by
  have dropped : (blanks.reverse ++ last :: s.reverse).dropWhile isBlank
      = last :: s.reverse := by
    rw [List.dropWhile_append_of_pos (fun c member => h c (List.mem_reverse.mp member))]
    simp [solid]
  simp [trimEnd, dropEndWhile, dropped]

section Blanks

variable {blanks : List Char}

/-- A text is what is left of it without the blanks at its end, and those. -/
theorem exists_blanks_trimEnd (s : List Char)
    : ∃ blanks, Blanks blanks ∧ s = trimEnd s ++ blanks :=
  ⟨s.rtakeWhile isBlank, fun _ member => List.mem_rtakeWhile_imp member,
    List.rdropWhile_append_rtakeWhile.symm⟩

theorem trimEnd_append_blanks (blank : Blanks blanks) (s : List Char)
    : trimEnd (s ++ blanks) = trimEnd s := by
  have behind : ∀ c ∈ blanks.reverse, isBlank c = true :=
    fun c member => blank c (List.mem_reverse.mp member)
  rw [trimEnd, dropEndWhile, List.reverse_append, List.dropWhile_append_of_pos behind]
  rfl

/-- Blanks behind a text stay, unless all of it is blank. -/
theorem trimStart_append_blanks (blank : Blanks blanks) (s : List Char)
    : trimStart (s ++ blanks) = if trimStart s = [] then [] else trimStart s ++ blanks := by
  have none : blanks.dropWhile isBlank = [] := List.dropWhile_eq_nil_iff.mpr blank
  rw [trimStart, trimStart, List.dropWhile_append, none]
  simp only [List.isEmpty_iff]

theorem trim_append_blanks (blank : Blanks blanks) (s : List Char)
    : trim (s ++ blanks) = trim s := by
  have parts (s : List Char) : trim s = trimEnd (trimStart s) := rfl
  rw [parts, parts, trimStart_append_blanks blank]
  split
  · next all => rw [all]
  · exact trimEnd_append_blanks blank _

theorem all_append_blanks (blank : Blanks blanks) (s : List Char)
    : (s ++ blanks).all isBlank = s.all isBlank := by
  rw [List.all_append, List.all_eq_true.mpr blank, Bool.and_true]

end Blanks

-----------------------------------------------------------------------------------------
-- Runs
-----------------------------------------------------------------------------------------

/-- A run of characters is cut off a text that goes on with no further one. -/
theorem takeWhile_dropWhile_append {p : Char → Bool} {run rest : List Char}
    (inside : ∀ c ∈ run, p c = true) (apart : ∀ c ∈ rest.head?, p c = false)
    : (run ++ rest).takeWhile p = run ∧ (run ++ rest).dropWhile p = rest := by
  rw [List.takeWhile_append_of_pos inside, List.dropWhile_append_of_pos inside]
  cases rest with
  | nil => exact ⟨List.append_nil run, rfl⟩
  | cons c more =>
      have other : ¬ p c = true := Bool.eq_false_iff.mp (apart c rfl)
      rw [List.takeWhile_cons_of_neg other, List.append_nil]
      exact ⟨rfl, List.dropWhile_cons_of_neg other⟩

-----------------------------------------------------------------------------------------
-- Prefixes and occurrences
-----------------------------------------------------------------------------------------

theorem strip?_eq_some_iff {word s rest : List Char}
    : strip? word s = some rest ↔ s = word ++ rest := by
  induction word generalizing s with
  | nil => simp [strip?, eq_comm]
  | cons w ws ih =>
      cases s with
      | nil => simp [strip?]
      | cons c cs =>
          rw [strip?]
          split
          · next same =>
              rw [ih]
              simp [same]
          · next distinct => simp [Ne.symm distinct]

theorem strip?_append (word rest : List Char)
    : strip? word (word ++ rest) = some rest :=
  strip?_eq_some_iff.mpr rfl

theorem cutFirst?_eq {word s before after : List Char}
    (found : cutFirst? word s = some (before, after))
    : s = before ++ (word ++ after) := by
  induction s generalizing before with
  | nil =>
      rw [cutFirst?] at found
      split at found
      · next empty =>
          cases found
          simp [empty]
      · exact absurd found (by simp)
  | cons c cs ih =>
      rw [cutFirst?] at found
      split at found
      · next rest stripped =>
          obtain ⟨rfl, rfl⟩ := Prod.mk.inj (Option.some.inj found)
          rw [List.nil_append]
          exact strip?_eq_some_iff.mp stripped
      · obtain ⟨⟨first, rest⟩, later, same⟩ := Option.map_eq_some_iff.mp found
        cases same
        rw [List.cons_append, ← ih later]

theorem cutLast?_eq {word s before after : List Char}
    (found : cutLast? word s = some (before, after))
    : s = before ++ (word ++ after) := by
  induction s generalizing before with
  | nil =>
      rw [cutLast?] at found
      split at found
      · next empty =>
          cases found
          simp [empty]
      · exact absurd found (by simp)
  | cons c cs ih =>
      rw [cutLast?] at found
      split at found
      · next first rest later =>
          cases found
          rw [List.cons_append, ← ih later]
      · obtain ⟨rest, stripped, same⟩ := Option.map_eq_some_iff.mp found
        obtain ⟨rfl, rfl⟩ := Prod.mk.inj same
        rw [List.nil_append]
        exact strip?_eq_some_iff.mp stripped

theorem contains_iff {word s : List Char} : contains word s = true ↔ word <:+: s := by
  rw [contains, Option.isSome_iff_exists]
  constructor
  · intro ⟨⟨before, after⟩, found⟩
    exact ⟨before, after, by rw [List.append_assoc, ← cutFirst?_eq found]⟩
  · intro occurs
    induction s with
    | nil =>
        rw [List.infix_nil] at occurs
        exact ⟨([], []), by simp [cutFirst?, occurs]⟩
    | cons c cs ih =>
        rw [cutFirst?]
        split
        · next rest stripped => exact ⟨_, rfl⟩
        · next absent =>
            rcases List.infix_cons_iff.mp occurs with ⟨rest, here⟩ | later
            · rw [strip?_eq_some_iff.mpr here.symm] at absent
              exact absurd absent (by simp)
            · obtain ⟨found, first⟩ := ih later
              exact ⟨_, by rw [first]; rfl⟩

/-- What a word does not have cannot hold the end of an occurrence. -/
theorem contains_append {word : List Char} (nonempty : word ≠ []) {tail : List Char}
    (apart : ∀ c ∈ tail, c ∉ word) (s : List Char)
    : contains word (s ++ tail) = contains word s := by
  rw [Bool.eq_iff_iff, contains_iff, contains_iff]
  refine ⟨?_, fun occurs => occurs.trans (List.prefix_append s tail).isInfix⟩
  intro ⟨before, after, whole⟩
  rcases List.append_eq_append_iff.mp whole with ⟨more, inside, -⟩ | ⟨more, reaches, left⟩
  · exact ⟨before, more, inside.symm⟩
  · rcases List.eq_nil_or_concat more with none | ⟨stem, last, some⟩
    · exact ⟨before, [], by simpa [none] using reaches⟩
    · -- The last character of the word would stand in the tail.
      obtain ⟨front, final, rfl⟩ := (List.eq_nil_or_concat word).resolve_left nonempty
      have same : final = last := by
        rw [some, List.concat_eq_append, List.concat_eq_append, ← List.append_assoc,
          ← List.append_assoc] at reaches
        exact (List.append_inj' reaches rfl).2 |> List.singleton_inj.mp
      have member : last ∈ tail := by
        rw [left, some]
        simp
      exact absurd (by simp [same]) (apart last member)

/-- A word does not reach across characters that it does not have. -/
theorem infix_append_append_iff {word separator : List Char} (nonempty : separator ≠ [])
    (apart : ∀ c ∈ separator, c ∉ word) (left right : List Char)
    : word <:+: left ++ (separator ++ right) ↔ word <:+: left ∨ word <:+: right := by
  have none {part : List Char} (inWord : part ⊆ word) (inside : part ⊆ separator) : part = [] :=
    List.eq_nil_iff_forall_not_mem.mpr fun c member => apart c (inside member) (inWord member)
  constructor
  · intro occurs
    rcases List.infix_append_iff.mp occurs with here | later | ⟨front, back, rfl, ends, starts⟩
    · exact Or.inl here
    · rcases List.infix_append_iff.mp later with within | there | ⟨front, back, rfl, ends, starts⟩
      · rw [none (List.Subset.refl word) within.subset]
        exact Or.inl List.nil_infix
      · exact Or.inr there
      · rw [none (List.subset_append_left front back) ends.subset]
        exact Or.inr starts.isInfix
    · obtain ⟨c, more, rfl⟩ := List.exists_cons_of_ne_nil nonempty
      rcases List.prefix_cons_iff.mp starts with rfl | ⟨rest, rfl, -⟩
      · rw [List.append_nil]
        exact Or.inl ends.isInfix
      · exact absurd (List.mem_append_right front List.mem_cons_self) (apart c List.mem_cons_self)
  · rintro (here | there)
    · exact here.trans (List.prefix_append _ _).isInfix
    · exact there.trans ((List.suffix_append _ _).trans (List.suffix_append _ _)).isInfix

-----------------------------------------------------------------------------------------
-- First and last occurrences at a known place
-----------------------------------------------------------------------------------------

/-- A character that cannot start the word is passed over. -/
theorem cutFirst?_cons {word : List Char} {c : Char} {cs : List Char}
    (absent : strip? word (c :: cs) = none)
    : cutFirst? word (c :: cs)
      = (cutFirst? word cs).map (fun (before, rest) => (c :: before, rest)) := by
  rw [cutFirst?, absent]

theorem cutFirst?_append_self {word : List Char} (nonempty : word ≠ []) (tail : List Char)
    : cutFirst? word (word ++ tail) = some ([], tail) := by
  obtain ⟨c, cs, rfl⟩ := List.exists_cons_of_ne_nil nonempty
  rw [List.cons_append, cutFirst?, ← List.cons_append, strip?_append]

/-- The last occurrence of a word stands behind, or at, any given one. Witness: induction along
the text; what is found behind a character goes before an occurrence at it. -/
theorem exists_cutLast? {word found s : List Char} (starts : word <+: found)
    (inside : found <:+ s)
    : ∃ before after, cutLast? word s = some (before, after) ∧ word ++ after <:+ found := by
  induction s with
  | nil =>
      obtain rfl := List.suffix_nil.mp inside
      obtain rfl := List.prefix_nil.mp starts
      exact ⟨[], [], rfl, List.suffix_rfl⟩
  | cons c cs ih =>
      rw [cutLast?]
      rcases List.suffix_cons_iff.mp inside with rfl | later
      · cases behind : cutLast? word cs with
        | some parts =>
            obtain ⟨before, after⟩ := parts
            refine ⟨c :: before, after, rfl, c :: before, ?_⟩
            rw [List.cons_append, ← cutLast?_eq behind]
        | none =>
            obtain ⟨rest, split⟩ := starts
            exact ⟨[], rest, by rw [strip?_eq_some_iff.mpr split.symm]; rfl, [], split⟩
      · obtain ⟨before, after, behind, shorter⟩ := ih later
        exact ⟨c :: before, after, by rw [behind], shorter⟩

/-- A word starts a text exactly if it starts a part of the text that is long enough. -/
theorem prefix_append_iff {word s : List Char} (long : word.length ≤ s.length) (rest : List Char)
    : word <+: s ++ rest ↔ word <+: s :=
  ⟨fun starts => List.prefix_of_prefix_length_le starts (List.prefix_append s rest) long,
    List.prefix_append_of_prefix⟩

/-- A word is first found at a place if it does not occur in what comes before its last character
there. -/
theorem cutFirst?_eq_some_iff {word : List Char} (nonempty : word ≠ []) (front after : List Char)
    : cutFirst? word (front ++ (word ++ after)) = some (front, after)
      ↔ ¬ word <:+: front ++ word.dropLast := by
  have size : word.dropLast.length + 1 = word.length := by
    have long := List.length_pos_iff.mpr nonempty
    rw [List.length_dropLast]
    omega
  induction front with
  | nil =>
      refine iff_of_true (cutFirst?_append_self nonempty after) (fun within => ?_)
      have short : word.length ≤ word.dropLast.length := within.length_le
      omega
  | cons c front ih =>
      have split : c :: (front ++ (word ++ after))
          = c :: (front ++ word.dropLast) ++ (word.getLast nonempty :: after) := by
        nth_rewrite 1 [← List.dropLast_append_getLast nonempty]
        simp
      have starts : word <+: c :: (front ++ (word ++ after))
          ↔ word <+: c :: (front ++ word.dropLast) := by
        rw [split]
        refine prefix_append_iff ?_ _
        rw [List.length_cons, List.length_append]
        omega
      rw [List.cons_append, List.cons_append, List.infix_cons_iff, not_or, ih.symm, starts.symm,
        cutFirst?]
      cases stripped : strip? word (c :: (front ++ (word ++ after))) with
      | some rest =>
          refine iff_of_false (by simp) (fun given => given.1 ?_)
          exact ⟨rest, (strip?_eq_some_iff.mp stripped).symm⟩
      | none =>
          have absent : ¬ word <+: c :: (front ++ (word ++ after)) := by
            intro ⟨rest, here⟩
            rw [strip?_eq_some_iff.mpr here.symm] at stripped
            cases stripped
          rw [and_iff_right absent]
          simp

/-- A word is last found at a place if it does not occur behind its first character there. -/
theorem cutLast?_eq_some_iff {word : List Char} (nonempty : word ≠ []) (front after : List Char)
    : cutLast? word (front ++ (word ++ after)) = some (front, after)
      ↔ ¬ word <:+: (word ++ after).tail := by
  induction front with
  | nil =>
      obtain ⟨c, cs, whole⟩ : ∃ c cs, word ++ after = c :: cs :=
        List.exists_cons_of_ne_nil (by simp [nonempty])
      rw [List.nil_append, whole, List.tail_cons, cutLast?]
      cases behind : cutLast? word cs with
      | some parts =>
          obtain ⟨before, rest⟩ := parts
          refine iff_of_false (by simp) (not_not.mpr ⟨before, rest, ?_⟩)
          rw [cutLast?_eq behind, List.append_assoc]
      | none =>
          rw [← whole, strip?_append]
          refine iff_of_true rfl (fun ⟨before, rest, occurs⟩ => ?_)
          have inside : word ++ rest <:+ cs := ⟨before, by rw [← occurs, List.append_assoc]⟩
          obtain ⟨_, _, found, -⟩ := exists_cutLast? (List.prefix_append word rest) inside
          rw [behind] at found
          cases found
  | cons c front ih =>
      obtain ⟨before, rest, found, -⟩ := exists_cutLast? (List.prefix_append word after)
        (List.suffix_append front (word ++ after))
      rw [← ih, List.cons_append, cutLast?, found]
      simp

-----------------------------------------------------------------------------------------
-- Joins
-----------------------------------------------------------------------------------------

theorem join_cons (separator s : List Char) {texts : List (List Char)} (nonempty : texts ≠ [])
    : join separator (s :: texts) = s ++ separator ++ join separator texts := by
  obtain ⟨t, rest, rfl⟩ := List.exists_cons_of_ne_nil nonempty
  rfl

theorem join_append (separator : List Char) {texts more : List (List Char)}
    (nonempty : texts ≠ []) (further : more ≠ [])
    : join separator (texts ++ more)
      = join separator texts ++ separator ++ join separator more := by
  induction texts with
  | nil => exact absurd rfl nonempty
  | cons s rest ih =>
      by_cases last : rest = []
      · subst last
        exact join_cons separator s further
      · rw [List.cons_append, join_cons separator s (by simp [last]), ih last,
          join_cons separator s last]
        simp

/-- Texts of which the first was joined already. -/
theorem join_join_cons (separator : List Char) {texts : List (List Char)} (nonempty : texts ≠ [])
    (more : List (List Char))
    : join separator (join separator texts :: more) = join separator (texts ++ more) := by
  by_cases further : more = []
  · rw [further, List.append_nil]
    rfl
  · rw [join_cons separator _ further, join_append separator nonempty further]

/-- What was joined is inside. -/
theorem infix_join_of_mem (separator : List Char) {s : List Char} {texts : List (List Char)}
    (member : s ∈ texts)
    : s <:+: join separator texts := by
  induction texts with
  | nil => exact absurd member List.not_mem_nil
  | cons first rest ih =>
      by_cases last : rest = []
      · rw [last] at member ⊢
        exact List.mem_singleton.mp member ▸ List.infix_rfl
      · rw [join_cons separator first last]
        rcases List.mem_cons.mp member with rfl | later
        · exact (List.prefix_append _ _).isInfix.trans (List.prefix_append _ _).isInfix
        · exact (ih later).trans (List.suffix_append _ _).isInfix

/-- What is joined has the characters of the texts and of the separator. -/
theorem not_mem_join {c : Char} {separator : List Char} (apart : c ∉ separator)
    {texts : List (List Char)} (plain : ∀ s ∈ texts, c ∉ s)
    : c ∉ join separator texts := by
  induction texts with
  | nil => exact List.not_mem_nil
  | cons s rest ih =>
      have first := plain s List.mem_cons_self
      have later := ih (fun other member => plain other (List.mem_cons_of_mem s member))
      cases rest with
      | nil => exact first
      | cons next more =>
          rw [join_cons separator s (by simp)]
          simp [first, apart, later]

/-- Groups of texts may be joined first, unless a group is empty. -/
theorem join_map_join (separator : List Char) {groups : List (List (List Char))}
    (nonempty : ∀ group ∈ groups, group ≠ [])
    : join separator (groups.map (join separator)) = join separator groups.flatten := by
  induction groups with
  | nil => rfl
  | cons group rest ih =>
      have later := ih (fun other member => nonempty other (List.mem_cons_of_mem group member))
      have own := nonempty group List.mem_cons_self
      cases rest with
      | nil => simp [join]
      | cons next more =>
          have further : (next :: more).flatten ≠ [] := by
            simp [nonempty next (by simp)]
          rw [List.map_cons, join_cons separator _ (by simp), later,
            ← join_append separator own further, ← List.flatten_cons]

end Traceability.Text
