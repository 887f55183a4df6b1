import Traceability.Proofs.Claim.Contract

/-! Blocks of changed lines.
A change that keeps the numbers of lines keeps the partition if it keeps the places of all
proposals. What is read off the blocks then follows from what is read off the proposals, whether
blocks are read alike before and after the change or not.
-/

namespace Traceability

/-- Changes the requirement that is held, if it is one. -/
def Content.revise (revise : Requirement → Requirement) : Content → Content
  | .requirement held => .requirement (revise held)
  | content => content

namespace Block

/-- A block without the text of its lines. -/
def bare (block : Block) : Block :=
  { block with rawText := "" }

/-- Changes the requirement of a block, without the text of its lines. -/
def revise (revise : Requirement → Requirement) (block : Block) : Block :=
  { block with rawText := "", content := block.content.revise revise }

end Block

variable {edit : Line → Line} {lines : List Line} {before after : Block → Block}

-----------------------------------------------------------------------------------------
-- Sweeps
-----------------------------------------------------------------------------------------

namespace Block

/-- Blocks that are read as the same stand at the same place. -/
def SamePlaces (before after : Block → Block) : Prop :=
  ∀ block other, after other = before block →
    other.startLine = block.startLine ∧ other.endLine = block.endLine

/-- The blocks of changed lines stand where the blocks of the lines do. -/
theorem endLine_ofLines_map (number : ∀ line, (edit line).number = line.number) (line : Line)
    (further : List Line) (content changed : Content)
    : (ofLines (edit line) (further.map edit) changed).endLine
      = (ofLines line further content).endLine := by
  simp only [ofLines, ← List.map_cons, List.getLast_map, number]

/-- A sweep finds the same blocks as before if its test does where it looks. Witness: induction
along the sweep; the lines that a block takes are skipped on both sides. -/
theorem sweep_map {opens? : Line → List Line → Option (Nat × Content)} (kept : Block → Prop)
    (passed
      : ∀ line rest, line :: rest <:+ lines →
          opens? line rest = none → opens? (edit line) (rest.map edit) = none)
    (opened
      : ∀ line rest count content, line :: rest <:+ lines →
          opens? line rest = some (count, content) →
          kept (ofLines line (rest.take count) content) →
            ∃ changed,
              opens? (edit line) (rest.map edit) = some (count, changed)
              ∧ after (ofLines (edit line) ((rest.take count).map edit) changed)
                = before (ofLines line (rest.take count) content))
    (all : ∀ block ∈ sweep opens? lines, kept block)
    : (sweep opens? (lines.map edit)).map after = (sweep opens? lines).map before := by
  induction lines using sweep.induct opens? with
  | case1 => simp [sweep]
  | case2 line rest none' ih =>
      have still := passed line rest List.suffix_rfl none'
      rw [sweep, none'] at all
      have further : rest <:+ line :: rest := List.suffix_cons line rest
      rw [List.map_cons, sweep, still, sweep, none']
      exact ih (fun other more behind => passed other more (behind.trans further))
        (fun other more count content behind =>
          opened other more count content (behind.trans further))
        all
  | case3 line rest count content found ih =>
      rw [sweep, found] at all
      obtain ⟨changed, still, same⟩ := opened line rest count content List.suffix_rfl found
        (all _ List.mem_cons_self)
      have further : rest.drop count <:+ line :: rest :=
        (List.drop_suffix count rest).trans (List.suffix_cons line rest)
      rw [List.map_cons, sweep, still, sweep, found]
      simp only [List.map_cons]
      rw [← List.map_take, ← List.map_drop, same, List.cons.injEq]
      exact ⟨rfl, ih (fun other more behind => passed other more (behind.trans further))
        (fun other more count content behind =>
          opened other more count content (behind.trans further))
        (fun block member => all block (List.mem_cons_of_mem _ member))⟩

end Block

-----------------------------------------------------------------------------------------
-- Partitions
-----------------------------------------------------------------------------------------

namespace Registry

/-- The partition under way, and the one of the changed lines. -/
structure Partition.Matches (edit : Line → Line) (before after : Block → Block)
    (partition changed : Partition)
    : Prop where
  free : changed.free = partition.free.map edit
  blocks : changed.blocks.map after = partition.blocks.map before

theorem filter_number_map (number : ∀ line, (edit line).number = line.number)
    (lines : List Line) (test : Nat → Bool)
    : (lines.map edit).filter (fun line => test line.number)
      = (lines.filter (fun line => test line.number)).map edit := by
  rw [List.filter_map]
  congr 2
  funext line
  rw [Function.comp_apply, number]

variable {partition changed : Partition}

theorem Partition.matches_initial (edit : Line → Line) (before after : Block → Block)
    (lines : List Line)
    : (Partition.initial lines).Matches edit before after (Partition.initial (lines.map edit)) :=
  ⟨rfl, rfl⟩

/-- A block is kept exactly if it was. -/
theorem Partition.Matches.accept (matched : partition.Matches edit before after changed)
    (number : ∀ line, (edit line).number = line.number)
    (places : Block.SamePlaces before after) {block other : Block}
    (same : after other = before block)
    : (partition.accept block).Matches edit before after (changed.accept other) := by
  obtain ⟨starts, ends⟩ := places block other same
  have includes : other.includes = block.includes := by
    funext n
    rw [Block.includes, Block.includes, starts, ends]
  have inside : (changed.free.filter (fun line => other.includes line.number))
      = (partition.free.filter (fun line => block.includes line.number)).map edit := by
    rw [matched.free, includes, filter_number_map number]
  have covered : covers changed.free other = covers partition.free block := by
    rw [covers, covers, inside, List.length_map, starts, ends]
  rw [Partition.accept, Partition.accept, covered]
  split
  · constructor
    · rw [matched.free, includes]
      exact filter_number_map number _ (fun n => !block.includes n)
    · rw [List.map_append, List.map_append, matched.blocks, List.map_singleton,
        List.map_singleton, same]
  · exact matched

theorem Partition.Matches.foldl_accept (matched : partition.Matches edit before after changed)
    (number : ∀ line, (edit line).number = line.number)
    (places : Block.SamePlaces before after) {offers others : List Block}
    (same : others.map after = offers.map before)
    : (offers.foldl Partition.accept partition).Matches edit before after
        (others.foldl Partition.accept changed) := by
  induction offers generalizing others partition changed with
  | nil =>
      obtain rfl := List.map_eq_nil_iff.mp same
      exact matched
  | cons block rest ih =>
      cases others with
      | nil => exact absurd same (by simp)
      | cons other more =>
          obtain ⟨first, later⟩ := List.cons.inj same
          exact ih (matched.accept number places first) later

theorem Partition.Matches.pass (matched : partition.Matches edit before after changed)
    (number : ∀ line, (edit line).number = line.number)
    (places : Block.SamePlaces before after) (context : ClaimContext) {claimant : Claimant}
    (same
      : (claimant.claim context (partition.free.map edit)).map after
        = (claimant.claim context partition.free).map before)
    : (partition.pass context claimant).Matches edit before after
        (changed.pass context claimant) := by
  have spent : changed.free = [] ↔ partition.free = [] := by
    rw [matched.free, List.map_eq_nil_iff]
  unfold Partition.pass
  by_cases empty : partition.free = []
  · rw [if_pos empty, if_pos (spent.mpr empty)]
    exact matched
  · rw [if_neg empty, if_neg (fun none' => empty (spent.mp none'))]
    rw [← matched.free] at same
    exact matched.foldl_accept number places same

/-- Claimants that propose the same of all lines that may be left take the same. -/
theorem Partition.Matches.foldl_pass (matched : partition.Matches edit before after changed)
    (number : ∀ line, (edit line).number = line.number)
    (places : Block.SamePlaces before after) (context : ClaimContext)
    {claimants : List Claimant}
    (same
      : ∀ claimant ∈ claimants, ∀ free, free ⊆ partition.free →
          (claimant.claim context (free.map edit)).map after
          = (claimant.claim context free).map before)
    : (claimants.foldl (Partition.pass context) partition).Matches edit before after
        (claimants.foldl (Partition.pass context) changed) := by
  induction claimants generalizing partition changed with
  | nil => exact matched
  | cons claimant rest ih =>
      have first := same claimant List.mem_cons_self partition.free (List.Subset.refl _)
      have left := (free_pass_sublist context partition claimant).subset
      exact ih (matched.pass number places context first) (fun other member free sub =>
        same other (List.mem_cons_of_mem _ member) free (List.Subset.trans sub left))

/-- Blocks are sorted by where they start, whatever else of them is looked at. -/
theorem map_blocks (context : ClaimContext) (lines : List Line) (f : Block → Block)
    (starts : ∀ block, (f block).startLine = block.startLine)
    : (standard.blocks context lines).map f
      = ((standard.final context lines).blocks.map f).mergeSort
          (fun a b => a.startLine ≤ b.startLine) := by
  refine List.map_mergeSort (fun a _ b _ => ?_)
  rw [starts, starts]

/-- The blocks of changed lines, from the partition of these. -/
theorem map_blocks_of_matches {context : ClaimContext}
    (matched
      : (standard.final context lines).Matches edit before after
          (standard.final context (lines.map edit)))
    (startBefore : ∀ block, (before block).startLine = block.startLine)
    (startAfter : ∀ block, (after block).startLine = block.startLine)
    : (standard.blocks context (lines.map edit)).map after
      = (standard.blocks context lines).map before := by
  rw [map_blocks context _ after startAfter, map_blocks context _ before startBefore,
    matched.blocks]

end Registry

end Traceability
