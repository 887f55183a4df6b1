import Traceability.Proofs.Text.Padding

/-! Texts that a sign separates.
Texts are joined with a sign between them and blanks around it. If the sign is in none of them,
splitting at it gives them back, apart from blanks at their ends.
-/

namespace Traceability.Text

-----------------------------------------------------------------------------------------
-- Trimmed texts
-----------------------------------------------------------------------------------------

/-- No blank is at either end of a text. -/
def Trimmed (s : List Char) : Prop :=
  trim s = s

instance (s : List Char) : Decidable (Trimmed s) :=
  inferInstanceAs (Decidable (_ = _))

theorem trim_blanks_append {blanks : List Char} (blank : Blanks blanks) (s : List Char)
    : trim (blanks ++ s) = trim s := by
  rw [trim, trimWhile, List.dropWhile_append_of_pos blank]
  rfl

theorem trim_space_cons (s : List Char) : trim (' ' :: s) = trim s :=
  trim_blanks_append (show Blanks [' '] by decide) s

/-- A text is what is left of it without the blanks around it, and those. -/
theorem exists_blanks_trim (s : List Char)
    : ∃ front back, Blanks front ∧ Blanks back ∧ s = front ++ (trim s ++ back) := by
  obtain ⟨front, blankFront, starts⟩ := exists_blanks_trimStart s
  obtain ⟨back, blankBack, ends⟩ := exists_blanks_trimEnd (trimStart s)
  exact ⟨front, back, blankFront, blankBack, starts.trans (congrArg (front ++ ·) ends)⟩

theorem trim_trim (s : List Char) : trim (trim s) = trim s := by
  obtain ⟨front, back, blankFront, blankBack, split⟩ := exists_blanks_trim s
  calc
    trim (trim s) = trim (trim s ++ back) := (trim_append_blanks blankBack _).symm
    _ = trim (front ++ (trim s ++ back)) := (trim_blanks_append blankFront _).symm
    _ = trim s := by rw [← split]

theorem trimmed_iff {s : List Char}
    : Trimmed s ↔ (∀ c ∈ s.head?, isBlank c = false) ∧ EndsSolid s := by
  constructor
  · intro trimmed
    refine ⟨fun c first => ?_, trimmed ▸ endsSolid_trim s⟩
    obtain ⟨back, -, split⟩ := exists_blanks_trimEnd (trimStart s)
    have starts : (trimStart s).head? = some c := by
      rw [split, show trimEnd (trimStart s) = s from trimmed]
      cases s with
      | nil => cases first
      | cons d rest => exact first
    have stopped := List.head?_dropWhile_not isBlank s
    rw [show (s.dropWhile isBlank).head? = some c from starts] at stopped
    simpa using stopped
  · intro ⟨starts, ends⟩
    have front : trimStart s = s := by
      cases s with
      | nil => rfl
      | cons c rest => exact trimStart_cons (starts c rfl) rest
    show trimEnd (trimStart s) = s
    rw [front]
    rcases List.eq_nil_or_concat s with rfl | ⟨stem, last, rfl⟩
    · rfl
    · have solid : isBlank last = false := ends last (by simp)
      rw [List.concat_eq_append]
      exact trimEnd_append (fun _ member => absurd member List.not_mem_nil) solid stem

theorem trim_trimEnd (s : List Char) : trim (trimEnd s) = trim s := by
  obtain ⟨back, blank, split⟩ := exists_blanks_trimEnd s
  nth_rewrite 2 [split]
  exact (trim_append_blanks blank _).symm

/-- Of what stands behind a trimmed text only blanks at the end are trimmed. -/
theorem trim_append_of_trimmed {s : List Char} (trimmed : Trimmed s) (some : s ≠ [])
    (rest : List Char)
    : trim (s ++ rest) = s ++ trimEnd rest := by
  obtain ⟨back, blank, split⟩ := exists_blanks_trimEnd rest
  have ends : Trimmed (s ++ trimEnd rest) := by
    rw [trimmed_iff] at trimmed ⊢
    refine ⟨fun c starts => trimmed.1 c ?_, fun c ends => ?_⟩
    · rwa [List.head?_append_of_ne_nil _ some] at starts
    · by_cases none : trimEnd rest = []
      · rw [none, List.append_nil] at ends
        exact trimmed.2 c ends
      · rw [List.getLast?_append_of_ne_nil _ none] at ends
        exact endsSolid_trimEnd rest c ends
  calc
    trim (s ++ rest) = trim (s ++ trimEnd rest ++ back) := by rw [List.append_assoc, ← split]
    _ = trim (s ++ trimEnd rest) := trim_append_blanks blank _
    _ = s ++ trimEnd rest := ends

theorem Trimmed.append {s t : List Char} (first : Trimmed s) (last : Trimmed t) (some : s ≠ [])
    (more : t ≠ []) (between : List Char)
    : Trimmed (s ++ between ++ t) := by
  rw [trimmed_iff] at first last ⊢
  refine ⟨fun c starts => first.1 c ?_, fun c ends => last.2 c ?_⟩
  · rwa [List.append_assoc, List.head?_append_of_ne_nil _ some] at starts
  · rwa [List.getLast?_append_of_ne_nil _ more] at ends

theorem join_ne_nil (separator : List Char) {texts : List (List Char)} (nonempty : texts ≠ [])
    (some : ∀ s ∈ texts, s ≠ [])
    : join separator texts ≠ [] := by
  obtain ⟨s, rest, rfl⟩ := List.exists_cons_of_ne_nil nonempty
  have inside := infix_join_of_mem separator (List.mem_cons_self : s ∈ s :: rest)
  intro empty
  rw [empty, List.infix_nil] at inside
  exact some s List.mem_cons_self inside

/-- Trimmed texts are trimmed when joined. -/
theorem trimmed_join (separator : List Char) {texts : List (List Char)}
    (some : ∀ s ∈ texts, s ≠ []) (trimmed : ∀ s ∈ texts, Trimmed s)
    : Trimmed (join separator texts) := by
  induction texts with
  | nil => rfl
  | cons s rest ih =>
      by_cases last : rest = []
      · rw [last]
        exact trimmed s List.mem_cons_self
      · have further := ih (fun t member => some t (List.mem_cons_of_mem s member))
          (fun t member => trimmed t (List.mem_cons_of_mem s member))
        rw [join_cons separator s last]
        exact (trimmed s List.mem_cons_self).append further (some s List.mem_cons_self)
          (join_ne_nil separator last (fun t member => some t (List.mem_cons_of_mem s member))) _

-----------------------------------------------------------------------------------------
-- Pieces
-----------------------------------------------------------------------------------------

theorem splitWhere_of_plain {p : Char → Bool} {s : List Char} (plain : ∀ c ∈ s, p c = false)
    : splitWhere p s = [s] := by
  induction s with
  | nil => rfl
  | cons c cs ih =>
      rw [splitWhere, plain c List.mem_cons_self,
        ih (fun d member => plain d (List.mem_cons_of_mem c member))]
      rfl

/-- The pieces of a text go on behind a character at which it is cut. -/
theorem splitWhere_append_separator {p : Char → Bool} (s : List Char) {sign : Char}
    (cuts : p sign = true) (rest : List Char)
    : splitWhere p (s ++ sign :: rest) = splitWhere p s ++ splitWhere p rest := by
  induction s with
  | nil => simp [splitWhere, cuts]
  | cons c s ih =>
      rw [List.cons_append, splitWhere, splitWhere, ih]
      split
      · rfl
      · cases pieces : splitWhere p s with
        | nil => exact absurd pieces (splitWhere_ne_nil p s)
        | cons first others => rfl

theorem splitWhere_append_cons {p : Char → Bool} {s : List Char} (plain : ∀ c ∈ s, p c = false)
    {sign : Char} (cuts : p sign = true) (rest : List Char)
    : splitWhere p (s ++ sign :: rest) = s :: splitWhere p rest := by
  rw [splitWhere_append_separator s cuts, splitWhere_of_plain plain]
  rfl

variable {sign : Char} {front back : List Char}

/-- Texts that a sign and blanks around it separate are split off at the sign, blanks around them
aside. The blanks in front are those behind the sign before. -/
theorem map_trim_splitWhere_join (solid : isBlank sign = false) (blankFront : Blanks front)
    (blankBack : Blanks back) {texts : List (List Char)} (nonempty : texts ≠ [])
    (plain : ∀ s ∈ texts, sign ∉ s) {blanks : List Char} (blank : Blanks blanks)
    : (splitWhere (· == sign) (blanks ++ join (front ++ sign :: back) texts)).map trim
      = texts.map trim := by
  have apart {c : Char} (isBlankChar : isBlank c = true) : (c == sign) = false := by
    rw [beq_eq_false_iff_ne]
    rintro rfl
    rw [isBlankChar] at solid
    cases solid
  have uncut {s : List Char} (fresh : sign ∉ s) : ∀ c ∈ s, (c == sign) = false := by
    intro c member
    rw [beq_eq_false_iff_ne]
    rintro rfl
    exact fresh member
  induction texts generalizing blanks with
  | nil => exact absurd rfl nonempty
  | cons s rest ih =>
      have own := uncut (plain s List.mem_cons_self)
      by_cases last : rest = []
      · have whole : ∀ c ∈ blanks ++ s, (c == sign) = false := by
          intro c member
          exact (List.mem_append.mp member).elim (fun inside => apart (blank c inside)) (own c)
        rw [last, join, splitWhere_of_plain whole, List.map_singleton, List.map_singleton,
          trim_blanks_append blank]
      · have split : blanks ++ join (front ++ sign :: back) (s :: rest)
            = (blanks ++ s ++ front) ++ sign :: (back ++ join (front ++ sign :: back) rest) := by
          rw [join_cons _ s last]
          simp
        have piece : ∀ c ∈ blanks ++ s ++ front, (c == sign) = false := by
          intro c member
          simp only [List.mem_append] at member
          rcases member with (inside | inside) | inside
          · exact apart (blank c inside)
          · exact own c inside
          · exact apart (blankFront c inside)
        rw [split, splitWhere_append_cons piece (beq_self_eq_true sign), List.map_cons,
          trim_append_blanks blankFront, trim_blanks_append blank, List.map_cons,
          ih last (fun t member => plain t (List.mem_cons_of_mem s member)) blankBack]

end Traceability.Text
