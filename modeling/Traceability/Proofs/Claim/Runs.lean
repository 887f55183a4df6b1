import Mathlib.Data.List.Chain
import Mathlib.Data.List.Nodup
import Traceability.Block

/-! Runs of consecutive numbers, and sweeps that stay inside them.
A reader of blocks looks ahead at the lines behind the one at which it stands. A block that
takes no more of them than the run has covers every number between its first and last line.
-/

namespace Traceability

-----------------------------------------------------------------------------------------
-- Numbers of lines
-----------------------------------------------------------------------------------------

namespace Line

/-- The numbers of the lines increase; they may have gaps. -/
def Ascending (lines : List Line) : Prop :=
  lines.Pairwise (fun a b => a.number < b.number)

theorem Ascending.sublist {lines others : List Line} (h : Ascending lines)
    (sub : others.Sublist lines)
    : Ascending others :=
  List.Pairwise.sublist sub h

theorem Ascending.nodup {lines : List Line} (h : Ascending lines)
    : (lines.map number).Nodup :=
  List.pairwise_map.mpr (List.Pairwise.imp Nat.ne_of_lt h)

/-- A line is among some of them exactly if its number is. -/
theorem Ascending.number_mem_iff {lines part : List Line} (h : Ascending lines)
    (sub : part ⊆ lines) {line : Line} (member : line ∈ lines)
    : line.number ∈ part.map number ↔ line ∈ part := by
  refine ⟨fun listed => ?_, List.mem_map_of_mem⟩
  obtain ⟨other, own, same⟩ := List.mem_map.mp listed
  exact List.inj_on_of_nodup_map h.nodup (sub own) member same ▸ own

theorem map_number_numbered (first : Nat) (texts : List (List Char))
    : (numbered first texts).map number = List.range' first texts.length := by
  induction texts generalizing first with
  | nil => rfl
  | cons text rest ih => simp [numbered, ih, List.range'_succ]

/-- A text has its lines numbered from one without a gap. -/
theorem map_number_ofText (text : String)
    : (ofText text).map number = List.range' 1 (Text.lines text.toList).length :=
  map_number_numbered 1 _

theorem length_ofText (text : String)
    : (ofText text).length = (Text.lines text.toList).length := by
  simpa using congrArg List.length (map_number_ofText text)

theorem ascending_ofText (text : String) : Ascending (ofText text) := by
  have numbers : ((ofText text).map number).Pairwise (· < ·) := by
    rw [map_number_ofText]
    exact List.pairwise_lt_range'
  exact List.pairwise_map.mp numbers

-----------------------------------------------------------------------------------------
-- Runs
-----------------------------------------------------------------------------------------

/-- The lines of a run have consecutive numbers, by induction along the run. -/
theorem map_number_run (line : Line) (rest : List Line) (count : Nat)
    (inRun : count ≤ line.runLength rest)
    : (line :: rest.take count).map number = List.range' line.number (count + 1) := by
  induction rest generalizing line count with
  | nil =>
      have none : count = 0 := Nat.le_zero.mp inRun
      subst none
      rfl
  | cons next rest ih =>
      cases count with
      | zero => rfl
      | succ count =>
          rw [runLength] at inRun
          split at inRun
          · next follows =>
              have tail := ih next count (Nat.le_of_succ_le_succ inRun)
              rw [List.take_succ_cons, List.map_cons, tail, follows, ← List.range'_succ]
          · exact absurd inRun (Nat.not_succ_le_zero count)

theorem run_append_drop (line : Line) (rest : List Line)
    : (line :: rest.take (line.runLength rest)) ++ rest.drop (line.runLength rest)
      = line :: rest := by
  rw [List.cons_append, List.take_append_drop]

/-- Induction along the runs of lines: a statement holds of lines if it holds of those behind their
first run. -/
theorem run_induction {motive : List Line → Prop} (nil : motive [])
    (run : ∀ line rest, motive (rest.drop (line.runLength rest)) → motive (line :: rest))
    (lines : List Line)
    : motive lines := by
  match lines with
  | [] => exact nil
  | line :: rest =>
      exact run line rest (run_induction nil run (rest.drop (line.runLength rest)))
termination_by lines.length
decreasing_by
  rw [List.length_drop, List.length_cons]
  omega

end Line

-----------------------------------------------------------------------------------------
-- Looking ahead for a closing line
-----------------------------------------------------------------------------------------

namespace Line

/-- The number of each line is one more than that of the line before. -/
def Consecutive (lines : List Line) : Prop :=
  lines.IsChain (fun a b => b.number = a.number + 1)

/-- Consecutive lines are the first ones of a run. -/
theorem Consecutive.length_le_runLength {line : Line} {further : List Line}
    (consecutive : Consecutive (line :: further)) (rest : List Line)
    : further.length ≤ line.runLength (further ++ rest) := by
  induction further generalizing line with
  | nil => exact Nat.zero_le _
  | cons next more ih =>
      obtain ⟨follows, later⟩ := List.isChain_cons_cons.mp consecutive
      rw [List.cons_append, runLength, if_pos follows]
      exact Nat.succ_le_succ (ih later)

/-- The line up to which a search goes, and those that it passes. -/
theorem exists_of_upTo? {closes stops : Line → Bool} {line : Line} {rest inner : List Line}
    {last : Line} (found : upTo? closes stops line rest = some (inner, last))
    : ∃ further,
        rest = inner ++ last :: further
        ∧ Consecutive (line :: (inner ++ [last]))
        ∧ closes last = true
        ∧ ∀ other ∈ inner, closes other = false ∧ stops other = false := by
  induction rest generalizing line inner with
  | nil => cases found
  | cons next rest ih =>
      rw [upTo?] at found
      split at found
      · cases found
      · next follows =>
          rw [ne_eq, Decidable.not_not] at follows
          split at found
          · next ends =>
              cases found
              exact ⟨rest, rfl, .cons_cons follows (.singleton _), ends, by simp⟩
          · next passes =>
              split at found
              · cases found
              · next goesOn =>
                  obtain ⟨⟨tail, end'⟩, later, same⟩ := Option.map_eq_some_iff.mp found
                  cases same
                  obtain ⟨further, split, consecutive, ends, passed⟩ := ih later
                  refine ⟨further, by rw [split]; rfl, .cons_cons follows consecutive, ends, ?_⟩
                  refine List.forall_mem_cons.mpr ⟨⟨?_, ?_⟩, passed⟩
                  · exact Bool.not_eq_true _ ▸ passes
                  · exact Bool.not_eq_true _ ▸ goesOn

/-- A search ends exactly at the first line that closes, if the numbers up to it are consecutive
and no line before it stops the search. -/
theorem upTo?_eq_some_iff {closes stops : Line → Bool} {line : Line} {rest inner : List Line}
    {last : Line}
    : upTo? closes stops line rest = some (inner, last)
      ↔ ∃ further,
          rest = inner ++ last :: further
          ∧ Consecutive (line :: (inner ++ [last]))
          ∧ closes last = true
          ∧ ∀ other ∈ inner, closes other = false ∧ stops other = false := by
  refine ⟨exists_of_upTo?, ?_⟩
  rintro ⟨further, rfl, consecutive, ends, passes⟩
  induction inner generalizing line with
  | nil =>
      obtain ⟨follows, -⟩ := List.isChain_cons_cons.mp consecutive
      rw [List.nil_append, upTo?, if_neg (not_not_intro follows), if_pos ends]
  | cons next more ih =>
      obtain ⟨follows, later⟩ := List.isChain_cons_cons.mp consecutive
      obtain ⟨⟨passed, goesOn⟩, behind⟩ := List.forall_mem_cons.mp passes
      rw [List.cons_append, upTo?, if_neg (not_not_intro follows), if_neg (by simp [passed]),
        if_neg (by simp [goesOn]), ih later behind]
      rfl

/-- The lines up to a closing line are the first ones of the run. -/
theorem upTo?_spec {closes stops : Line → Bool} {line : Line} {rest inner : List Line} {last : Line}
    (found : upTo? closes stops line rest = some (inner, last))
    : ∃ further,
        rest = inner ++ last :: further
        ∧ inner.length + 1 ≤ line.runLength rest
        ∧ closes last = true
        ∧ ∀ other ∈ inner, closes other = false := by
  obtain ⟨further, rfl, consecutive, ends, passes⟩ := exists_of_upTo? found
  refine ⟨further, rfl, ?_, ends, fun other member => (passes other member).1⟩
  simpa using consecutive.length_le_runLength further

/-- A change that both tests and the numbers do not notice leaves the closing line where it
was. -/
theorem upTo?_map (closes stops : Line → Bool) {edit : Line → Line}
    (number : ∀ line, (edit line).number = line.number) (line : Line) {rest : List Line}
    (same : ∀ other ∈ rest, closes (edit other) = closes other ∧ stops (edit other) = stops other)
    : upTo? closes stops (edit line) (rest.map edit)
      = (upTo? closes stops line rest).map (fun found => (found.1.map edit, edit found.2)) := by
  induction rest generalizing line with
  | nil => rfl
  | cons next rest ih =>
      obtain ⟨ends, halts⟩ := same next List.mem_cons_self
      have later := ih next (fun other member => same other (List.mem_cons_of_mem _ member))
      rw [List.map_cons, upTo?, upTo?, number, number, ends, halts, later]
      split
      · rfl
      · split
        · rfl
        · split
          · rfl
          · rw [Option.map_map, Option.map_map]
            rfl

end Line

-----------------------------------------------------------------------------------------
-- Blocks inside a run
-----------------------------------------------------------------------------------------

namespace Block

theorem includes_iff (block : Block) (n : Nat)
    : block.includes n = true ↔ block.startLine ≤ n ∧ n ≤ block.endLine := by
  simp [includes]

/-- No line is in both blocks. -/
def Disjoint (a b : Block) : Prop :=
  ∀ n, ¬ (a.includes n = true ∧ b.includes n = true)

theorem Disjoint.symm {a b : Block} (h : a.Disjoint b) : b.Disjoint a :=
  fun n both => h n both.symm

/-- A block inside a run ends as many lines behind its first line as it takes further lines. -/
theorem ofLines_endLine (line : Line) (rest : List Line) (count : Nat) (content : Content)
    (inRun : count ≤ line.runLength rest)
    : (ofLines line (rest.take count) content).endLine = line.number + count := by
  have numbers := Line.map_number_run line rest count inRun
  have last : ((line :: rest.take count).map Line.number).getLast (by simp)
      = (List.range' line.number (count + 1)).getLast (by simp) := by
    simp only [numbers]
  rw [List.getLast_map, List.getLast_range'] at last
  simpa [ofLines] using last

/-- A block inside a run includes exactly the numbers of its lines. -/
theorem ofLines_includes_iff (line : Line) (rest : List Line) (count : Nat) (content : Content)
    (inRun : count ≤ line.runLength rest) (n : Nat)
    : (ofLines line (rest.take count) content).includes n = true
      ↔ n ∈ (line :: rest.take count).map Line.number := by
  have first : (ofLines line (rest.take count) content).startLine = line.number := rfl
  rw [includes_iff, ofLines_endLine line rest count content inRun, first,
    Line.map_number_run line rest count inRun, List.mem_range'_1]
  omega

/-- A block inside a run includes its own lines, and neither the lines before it nor those
after it. -/
theorem ofLines_includes_parts {skipped rest : List Line} {line : Line} {count : Nat}
    (ascending : Line.Ascending (skipped ++ line :: rest))
    (inRun : count ≤ line.runLength rest) (content : Content)
    : let block := ofLines line (rest.take count) content
      (∀ other ∈ skipped, block.includes other.number = false)
      ∧ (∀ own ∈ line :: rest.take count, block.includes own.number = true)
      ∧ ∀ other ∈ rest.drop count, block.includes other.number = false := by
  intro block
  have inBlock := ofLines_includes_iff line rest count content inRun
  have split : line :: rest = (line :: rest.take count) ++ rest.drop count := by
    rw [List.cons_append, List.take_append_drop]
  obtain ⟨-, tail, before⟩ := List.pairwise_append.mp ascending
  rw [split] at tail
  obtain ⟨-, -, after⟩ := List.pairwise_append.mp tail
  refine ⟨?_, ?_, ?_⟩
  · intro other early
    rw [← Bool.not_eq_true, includes_iff]
    have below := before other early line List.mem_cons_self
    have start : block.startLine = line.number := rfl
    omega
  · intro own member
    exact (inBlock own.number).mpr (List.mem_map_of_mem member)
  · intro other late
    rw [← Bool.not_eq_true]
    intro inside
    obtain ⟨own, member, same⟩ := List.mem_map.mp ((inBlock other.number).mp inside)
    have above := after own member other late
    omega

/-- The test of a sweep that never takes more further lines than the run has. -/
def Contiguous (opens? : Line → List Line → Option (Nat × Content)) : Prop :=
  ∀ line rest count content,
    opens? line rest = some (count, content) → count ≤ line.runLength rest

/-- Disjoint blocks in the order of their first lines end before the next one starts. Witness:
of two disjoint ranges the one that starts first ends first. -/
theorem pairwise_before_mergeSort {blocks : List Block}
    (nonempty : ∀ block ∈ blocks, block.startLine ≤ block.endLine)
    (disjoint : blocks.Pairwise Disjoint)
    : (blocks.mergeSort (fun a b => a.startLine ≤ b.startLine)).Pairwise
        (fun a b => a.endLine < b.startLine) := by
  let sorted := blocks.mergeSort (fun a b => a.startLine ≤ b.startLine)
  have perm : sorted.Perm blocks := List.mergeSort_perm _ _
  have ordered : sorted.Pairwise (fun a b => decide (a.startLine ≤ b.startLine) = true) :=
    List.pairwise_mergeSort
      (fun _ _ _ ab bc => by simp only [decide_eq_true_eq] at *; omega)
      (fun _ _ => by simp only [Bool.or_eq_true, decide_eq_true_eq]; omega) _
  have apart : sorted.Pairwise Disjoint := (perm.pairwise_iff Disjoint.symm).mpr disjoint
  refine (ordered.and apart).imp_of_mem ?_
  intro a b memberA memberB ⟨starts, separate⟩
  have startsA := nonempty a (perm.mem_iff.mp memberA)
  have startsB := nonempty b (perm.mem_iff.mp memberB)
  have here := separate b.startLine
  rw [includes_iff, includes_iff] at here
  simp only [decide_eq_true_eq] at starts
  omega

end Block

end Traceability
