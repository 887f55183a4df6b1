import Mathlib.Order.Bounds.Defs
import Traceability.Proofs.Claim.Contract

/-! The remainder cuts lines into their maximal runs.
A sweep that takes at each line all the lines that continue its run stops exactly at the gaps. No
run reaches across a gap, so every run lies in one block, and the blocks are the runs that no
other run contains.
-/

namespace Traceability

-----------------------------------------------------------------------------------------
-- Where a run ends
-----------------------------------------------------------------------------------------

namespace Line

variable {line : Line} {lines rest run : List Line}

theorem runLength_le_length (line : Line) (rest : List Line)
    : line.runLength rest ≤ rest.length := by
  induction rest generalizing line with
  | nil => exact Nat.le_refl 0
  | cons next rest ih =>
      rw [runLength, List.length_cons]
      split
      · exact Nat.succ_le_succ (ih next)
      · exact Nat.zero_le _

/-- The lines behind a line go on with its numbers exactly as far as its run goes. -/
theorem consecutive_take_iff {count : Nat} (within : count ≤ rest.length)
    : Consecutive (line :: rest.take count) ↔ count ≤ line.runLength rest := by
  constructor
  · intro consecutive
    have bound := consecutive.length_le_runLength (rest.drop count)
    rwa [List.take_append_drop, List.length_take_of_le within] at bound
  · intro inRun
    have numbers := List.isChain_range' line.number (count + 1) 1
    rw [← map_number_run line rest count inRun] at numbers
    exact (List.isChain_map number).mp numbers

theorem consecutive_run (line : Line) (rest : List Line)
    : Consecutive (line :: rest.take (line.runLength rest)) :=
  (consecutive_take_iff (runLength_le_length line rest)).mpr (Nat.le_refl _)

/-- The number behind a run is missing. Witness: induction along the run; behind a gap all numbers
are larger. -/
theorem number_behind_run (ascending : Ascending (line :: rest))
    : line.number + line.runLength rest + 1 ∉ (line :: rest).map number := by
  induction rest generalizing line with
  | nil => simp [runLength]
  | cons next rest ih =>
      obtain ⟨above, later⟩ := List.pairwise_cons.mp ascending
      have follows := above next List.mem_cons_self
      rw [runLength, List.map_cons, List.mem_cons, not_or]
      split
      · next consecutive =>
          have shift : line.number + (next.runLength rest + 1) + 1
              = next.number + next.runLength rest + 1 := by omega
          rw [shift]
          exact ⟨by omega, ih later⟩
      · next gap =>
          refine ⟨by omega, fun listed => ?_⟩
          obtain ⟨other, member, same⟩ := List.mem_map.mp listed
          rcases List.mem_cons.mp member with rfl | behind
          · exact gap same
          · have := List.rel_of_pairwise_cons later behind
            omega

/-- The line behind a run does not go on with its numbers. -/
theorem not_follows_run (line : Line) (rest : List Line)
    : ∀ last ∈ (line :: rest.take (line.runLength rest)).getLast?,
        ∀ next ∈ (rest.drop (line.runLength rest)).head?, next.number ≠ last.number + 1 := by
  intro last ends next behind follows
  rw [List.head?_drop] at behind
  have longer : Consecutive ((line :: rest.take (line.runLength rest)) ++ [next]) := by
    refine List.isChain_append.mpr ⟨consecutive_run line rest, .singleton next, ?_⟩
    intro other ends' next' behind'
    obtain rfl : last = other := Option.some.inj (ends.symm.trans ends')
    obtain rfl : next = next' := Option.some.inj behind'
    exact follows
  obtain ⟨within, -⟩ := List.getElem?_eq_some_iff.mp behind
  have taken : rest.take (line.runLength rest + 1) = rest.take (line.runLength rest) ++ [next] := by
    rw [List.take_add_one, behind, Option.toList_some]
  rw [List.cons_append, ← taken, consecutive_take_iff within] at longer
  exact absurd longer (Nat.not_succ_le_self _)

theorem runEnd_of_drop {start : Nat} (behind : lines.drop start = line :: rest)
    : runEnd lines start = start + line.runLength rest := by
  rw [runEnd, behind]

/-- The run that goes on from a line ends at the last position up to which the numbers of the lines
are consecutive. -/
theorem isGreatest_runEnd {start : Nat} (inside : start < lines.length)
    : IsGreatest
        {stop | start ≤ stop ∧ stop < lines.length
          ∧ Consecutive ((lines.drop start).take (stop + 1 - start))}
        (runEnd lines start) := by
  have behind := List.drop_eq_getElem_cons inside
  have size : lines.length = start + ((lines.drop (start + 1)).length + 1) := by
    rw [List.length_drop]
    omega
  rw [runEnd_of_drop behind]
  constructor
  · have bound := runLength_le_length lines[start] (lines.drop (start + 1))
    refine ⟨Nat.le_add_right _ _, by omega, ?_⟩
    rw [behind, Nat.add_assoc, Nat.add_sub_cancel_left, List.take_succ_cons]
    exact consecutive_run _ _
  · rintro stop ⟨above, below, consecutive⟩
    obtain ⟨count, rfl⟩ := Nat.exists_eq_add_of_le above
    rw [behind, Nat.add_assoc, Nat.add_sub_cancel_left, List.take_succ_cons,
      consecutive_take_iff (by omega)] at consecutive
    exact Nat.add_le_add_left consecutive start

-----------------------------------------------------------------------------------------
-- Maximal runs
-----------------------------------------------------------------------------------------

/-- Lines that stand next to each other, with consecutive numbers, and not all of them inside a
longer run. -/
structure MaximalRun (lines run : List Line) : Prop where
  nonempty : run ≠ []
  consecutive : Consecutive run
  inside : run <:+: lines
  maximal
    : ∀ longer, longer <:+: lines → Consecutive longer → run <:+: longer → longer = run

/-- No run reaches across the end of the first one. Witness: the line behind that end does not go on
with its numbers. -/
theorem Consecutive.infix_cons_iff (consecutive : Consecutive run)
    : run <:+: line :: rest
      ↔ run <:+: line :: rest.take (line.runLength rest)
        ∨ run <:+: rest.drop (line.runLength rest) := by
  nth_rewrite 1 [← run_append_drop line rest]
  rw [List.infix_append_iff]
  refine ⟨?_, fun inside => inside.imp_right .inl⟩
  rintro (own | later | ⟨front, back, rfl, ends, starts⟩)
  · exact .inl own
  · exact .inr later
  · obtain ⟨-, -, joins⟩ := List.isChain_append.mp consecutive
    rcases List.eq_nil_or_concat front with rfl | ⟨before, last, rfl⟩
    · exact .inr (List.nil_append back ▸ starts.isInfix)
    · cases back with
      | nil => exact .inl (List.append_nil _ ▸ ends.isInfix)
      | cons next more =>
          obtain ⟨skipped, own⟩ := ends
          obtain ⟨further, later⟩ := starts
          exact absurd (joins last (by simp) next rfl)
            (not_follows_run line rest last (by simp [← own]) next (by simp [← later]))

/-- Lines have as maximal runs the first one and the maximal runs of the lines behind it. -/
theorem maximalRun_cons_iff (ascending : Ascending (line :: rest))
    : MaximalRun (line :: rest) run
      ↔ run = line :: rest.take (line.runLength rest)
        ∨ MaximalRun (rest.drop (line.runLength rest)) run := by
  let own := line :: rest.take (line.runLength rest)
  let later := rest.drop (line.runLength rest)
  have split : own ++ later = line :: rest := run_append_drop line rest
  have ownInside : own <:+: line :: rest := split ▸ (List.prefix_append own later).isInfix
  have laterInside : later <:+: line :: rest := split ▸ (List.suffix_append own later).isInfix
  have apart {part : List Line} (filled : part ≠ []) (inOwn : part <:+: own)
      : ¬ part <:+: later := by
    have distinct : (own ++ later).Nodup := split.symm ▸ ascending.nodup.of_map number
    obtain ⟨first, member⟩ := List.exists_mem_of_ne_nil part filled
    intro inLater
    exact List.disjoint_of_nodup_append distinct (inOwn.mem member) (inLater.mem member)
  -- A run inside a longer one is in the same part, as each of them is in one part and no line is in
  -- both.
  constructor
  · intro ⟨filled, consecutive, inside, maximal⟩
    rcases consecutive.infix_cons_iff.mp inside with inOwn | inLater
    · exact .inl (maximal own ownInside (consecutive_run line rest) inOwn).symm
    · exact .inr ⟨filled, consecutive, inLater, fun longer further =>
        maximal longer (further.trans laterInside)⟩
  · rintro (rfl | ⟨filled, consecutive, inLater, maximal⟩)
    · refine ⟨List.cons_ne_nil _ _, consecutive_run line rest, ownInside, ?_⟩
      intro longer inside consecutive holds
      rcases consecutive.infix_cons_iff.mp inside with inOwn | inLater
      · exact inOwn.eq_of_length (Nat.le_antisymm inOwn.length_le holds.length_le)
      · exact absurd (holds.trans inLater) (apart (List.cons_ne_nil _ _) List.infix_rfl)
    · refine ⟨filled, consecutive, inLater.trans laterInside, ?_⟩
      intro longer inside consecutive holds
      rcases consecutive.infix_cons_iff.mp inside with inOwn | further
      · exact absurd inLater (apart filled (holds.trans inOwn))
      · exact maximal longer further consecutive holds

end Line

-----------------------------------------------------------------------------------------
-- The blocks of the remainder
-----------------------------------------------------------------------------------------

/-- Blocks of the remainder that are the maximal runs of lines: each line is in exactly one of them,
each covers lines with consecutive numbers, between two of them a number is missing, and each
maximal run is one of them. -/
structure Block.AreMaximalRuns (lines : List Line) (blocks : List Block) : Prop where
  once : ∀ line ∈ lines, blocks.countP (fun block => block.includes line.number) = 1
  whole : ∀ block ∈ blocks, block.Whole lines
  apart
    : blocks.Pairwise (fun a b =>
        ∃ n, a.endLine < n ∧ n < b.startLine ∧ n ∉ lines.map Line.number)
  exact
    : ∀ block,
        block ∈ blocks
        ↔ ∃ first further,
            Line.MaximalRun lines (first :: further)
            ∧ block = Block.ofLines first further .remainder

namespace Claim

variable {context : ClaimContext} {lines : List Line} {block : Block}

/-- A number is in as many blocks of the remainder as there are lines with it. -/
theorem countP_includes_remainder (context : ClaimContext) (lines : List Line) (n : Nat)
    : (remainder.claim context lines).countP (fun block => block.includes n)
      = (lines.map Line.number).count n := by
  induction lines using Line.run_induction with
  | nil => simp [remainder, Block.sweep]
  | run line rest ih =>
      have inRun := Nat.le_refl (line.runLength rest)
      have own := Block.ofLines_includes_iff line rest _ .remainder inRun n
      have distinct : ((line :: rest.take (line.runLength rest)).map Line.number).Nodup := by
        rw [Line.map_number_run line rest _ inRun]
        exact List.nodup_range'
      nth_rewrite 2 [← Line.run_append_drop line rest]
      rw [Registry.remainder_cons, List.countP_cons, ih, List.map_append, List.count_append,
        distinct.count, Nat.add_comm]
      simp only [own]

/-- The remainder has a block of each maximal run, and no other block. -/
theorem mem_remainder_iff (context : ClaimContext) (ascending : Line.Ascending lines)
    : block ∈ remainder.claim context lines
      ↔ ∃ first further,
          Line.MaximalRun lines (first :: further)
          ∧ block = Block.ofLines first further .remainder := by
  induction lines using Line.run_induction with
  | nil =>
      have none (run : List Line) : ¬ Line.MaximalRun [] run :=
        fun maximal => maximal.nonempty (List.infix_nil.mp maximal.inside)
      simp [remainder, Block.sweep, none]
  | run line rest ih =>
      have later := ih (ascending.sublist
        ((List.drop_sublist _ rest).trans (List.sublist_cons_self line rest)))
      simp only [Registry.remainder_cons, List.mem_cons, later, Line.maximalRun_cons_iff ascending,
        List.cons.injEq]
      constructor
      · rintro (rfl | ⟨first, further, maximal, rfl⟩)
        · exact ⟨_, _, .inl ⟨rfl, rfl⟩, rfl⟩
        · exact ⟨first, further, .inr maximal, rfl⟩
      · rintro ⟨first, further, ⟨rfl, rfl⟩ | maximal, rfl⟩
        · exact .inl rfl
        · exact .inr ⟨first, further, maximal, rfl⟩

/-- The number behind a block of the remainder is missing. -/
theorem number_behind_remainder (ascending : Line.Ascending lines)
    (member : block ∈ remainder.claim context lines)
    : block.endLine + 1 ∉ lines.map Line.number := by
  obtain ⟨line, rest, count, content, ⟨skipped, rfl⟩, opened, rfl⟩ := Block.mem_sweep member
  obtain ⟨rfl, rfl⟩ : line.runLength rest = count ∧ Content.remainder = content := by
    simpa using opened
  obtain ⟨-, later, before⟩ := List.pairwise_append.mp ascending
  rw [Block.ofLines_endLine line rest _ _ (Nat.le_refl _), List.map_append, List.mem_append, not_or]
  refine ⟨fun listed => ?_, Line.number_behind_run later⟩
  obtain ⟨other, early, same⟩ := List.mem_map.mp listed
  have := before other early line List.mem_cons_self
  omega

/-- The blocks of the remainder are the maximal runs of the lines. They are found one after the
other: at each position the block of the run that goes on from there is taken off, which ends at
the last position up to which the numbers are consecutive. -/
theorem remainder_claims_maximal_runs (context : ClaimContext) {lines : List Line}
    (ascending : Line.Ascending lines)
    : Block.AreMaximalRuns lines (remainder.claim context lines)
      ∧ ∀ (start : Nat) (inside : start < lines.length),
          IsGreatest
              {stop | start ≤ stop ∧ stop < lines.length
                ∧ Line.Consecutive ((lines.drop start).take (stop + 1 - start))}
              (Line.runEnd lines start)
            ∧ remainder.claim context (lines.drop start)
              = Block.ofLines lines[start]
                  ((lines.drop (start + 1)).take (Line.runEnd lines start - start)) .remainder
                :: remainder.claim context (lines.drop (Line.runEnd lines start + 1)) := by
  have keeps : remainder.KeepsContract := keepsContract_of_mem (by simp)
  obtain ⟨whole, ordered⟩ := keeps context lines ascending
  refine ⟨⟨fun line member => ?_, whole, ?_, fun _ => mem_remainder_iff context ascending⟩, ?_⟩
  · rw [countP_includes_remainder]
    exact List.count_eq_one_of_mem ascending.nodup (List.mem_map_of_mem member)
  · refine ordered.imp_of_mem (fun {a b} memberA memberB before => ?_)
    have missing := number_behind_remainder ascending memberA
    have starts := (whole b memberB).present b.startLine
      ((b.includes_iff _).mpr ⟨Nat.le_refl _, (whole b memberB).nonempty⟩)
    have distinct : a.endLine + 1 ≠ b.startLine := fun same => missing (same ▸ starts)
    exact ⟨a.endLine + 1, Nat.lt_succ_self _, Nat.lt_of_le_of_ne before distinct, missing⟩
  · intro start inside
    have behind := List.drop_eq_getElem_cons inside
    refine ⟨Line.isGreatest_runEnd inside, ?_⟩
    rw [Line.runEnd_of_drop behind, Nat.add_sub_cancel_left, behind, Registry.remainder_cons,
      List.drop_drop, Nat.add_right_comm]

/-- Lines that are left in three places of a file. -/
def scatteredLines : List Line := [⟨1, "a"⟩, ⟨2, "b"⟩, ⟨4, "c"⟩, ⟨7, "d"⟩, ⟨8, "e"⟩]

theorem remainder_claims_maximal_runs_scatteredLines
    : let blocks := remainder.claim ⟨"a.md", Config.defaultScheme⟩ scatteredLines
      Line.Ascending scatteredLines
        ∧ Block.AreMaximalRuns scatteredLines blocks
        ∧ blocks.map (fun block => (block.startLine, block.endLine, block.rawText))
          = [(1, 2, "a\nb"), (4, 4, "c"), (7, 8, "d\ne")]
        ∧ IsGreatest
            {stop | 3 ≤ stop ∧ stop < scatteredLines.length
              ∧ Line.Consecutive ((scatteredLines.drop 3).take (stop + 1 - 3))}
            (Line.runEnd scatteredLines 3)
        ∧ (List.range 5).map (Line.runEnd scatteredLines) = [1, 1, 2, 4, 4] := by
  have ascending : Line.Ascending scatteredLines := by
    unfold Line.Ascending
    decide
  obtain ⟨runs, steps⟩ :=
    remainder_claims_maximal_runs ⟨"a.md", Config.defaultScheme⟩ ascending
  exact ⟨ascending, runs, by cbv, (steps 3 (by decide)).1, by decide⟩

end Claim

end Traceability
