import Mathlib.Data.List.Nodup
import Mathlib.Data.List.Perm.Subperm
import Traceability.Claim.Registry
import Traceability.Proofs.Claim.Runs

/-! Which proposals a registry keeps.
The invariant of a partition under way says that the free lines are those in no block kept so
far. Every offer preserves it, whatever the claimants propose, so a proposal is kept exactly if
its lines are in no block kept before it.
-/

namespace Traceability

/-- The lines that are in none of the blocks. -/
def unclaimed (lines : List Line) (blocks : List Block) : List Line :=
  lines.filter (fun line => !blocks.any (fun block => block.includes line.number))

theorem mem_unclaimed_iff {lines : List Line} {blocks : List Block} {line : Line}
    : line ∈ unclaimed lines blocks
      ↔ line ∈ lines ∧ ∀ block ∈ blocks, ¬ block.includes line.number = true := by
  simp [unclaimed]

theorem unclaimed_append (lines : List Line) (blocks more : List Block)
    : unclaimed (unclaimed lines blocks) more = unclaimed lines (blocks ++ more) := by
  simp only [unclaimed, List.filter_filter, List.any_append, Bool.not_or]
  congr 1
  funext line
  rw [Bool.and_comm]

namespace Registry

-----------------------------------------------------------------------------------------
-- Acceptance of one proposal
-----------------------------------------------------------------------------------------

/-- The numbers of the lines that a block includes. -/
private theorem map_number_included (free : List Line) (block : Block)
    : (free.filter (fun line => block.includes line.number)).map Line.number
      = (free.map Line.number).filter block.includes := by
  rw [List.filter_map]
  rfl

/-- Counting the free lines in a range decides whether all its numbers are free. Witness: the
free numbers in the range and the range are duplicate-free, so one contains the other exactly
if it has as many members. -/
theorem covers_iff {free : List Line} (nodup : (free.map Line.number).Nodup) (block : Block)
    : covers free block = true
      ↔ block.startLine ≤ block.endLine
        ∧ ∀ n, block.includes n = true → n ∈ free.map Line.number := by
  let range := List.range' block.startLine (block.endLine + 1 - block.startLine)
  let found := (free.map Line.number).filter block.includes
  have memRange (n : Nat) : n ∈ range ↔ block.includes n = true := by
    rw [Block.includes_iff, List.mem_range'_1]
    omega
  have foundNodup : found.Nodup := nodup.filter _
  have rangeNodup : range.Nodup := List.nodup_range'
  have foundSubset : found ⊆ range := by
    intro n member
    exact (memRange n).mpr (List.mem_filter.mp member).2
  have count : (free.filter (fun line => block.includes line.number)).length = found.length := by
    rw [← List.length_map Line.number, map_number_included]
  have size : range.length = block.endLine + 1 - block.startLine := List.length_range'
  simp only [covers, Bool.and_eq_true, decide_eq_true_eq, beq_iff_eq, count, ← size]
  refine and_congr_right (fun _ => ⟨fun same n inside => ?_, fun all => ?_⟩)
  · have perm : found.Perm range :=
      (foundNodup.subperm foundSubset).perm_of_length_le (Nat.le_of_eq same.symm)
    exact (List.mem_filter.mp (perm.mem_iff.mpr ((memRange n).mpr inside))).1
  · have rangeSubset : range ⊆ found := by
      intro n member
      have inside := (memRange n).mp member
      exact List.mem_filter.mpr ⟨all n inside, inside⟩
    exact Nat.le_antisymm (foundNodup.subperm foundSubset).length_le
      (rangeNodup.subperm rangeSubset).length_le

theorem accept_of_covers {partition : Partition} {block : Block}
    (h : covers partition.free block = true)
    : partition.accept block
      = { free := unclaimed partition.free [block], blocks := partition.blocks ++ [block] } := by
  simp [Partition.accept, h, unclaimed]

theorem accept_of_not_covers {partition : Partition} {block : Block}
    (h : ¬ covers partition.free block = true)
    : partition.accept block = partition := by
  simp [Partition.accept, h]

-----------------------------------------------------------------------------------------
-- The invariant of a partition under way
-----------------------------------------------------------------------------------------

/-- The partition before the first claimant. -/
def Partition.initial (lines : List Line) : Partition :=
  { free := lines, blocks := [] }

/-- What holds after every offer: the kept blocks are disjoint ranges of lines of the file, and
the free lines are those in none of them. -/
structure Partition.Valid (lines : List Line) (partition : Partition) : Prop where
  free : partition.free = unclaimed lines partition.blocks
  nonempty : ∀ block ∈ partition.blocks, block.startLine ≤ block.endLine
  within
    : ∀ block ∈ partition.blocks, ∀ n,
        block.includes n = true → n ∈ lines.map Line.number
  disjoint : partition.blocks.Pairwise Block.Disjoint

theorem Partition.valid_initial (lines : List Line)
    : (Partition.initial lines).Valid lines where
  free := by simp [initial, unclaimed]
  nonempty := by simp [initial]
  within := by simp [initial]
  disjoint := .nil

theorem Partition.Valid.ascending {lines : List Line} {partition : Partition}
    (valid : partition.Valid lines) (ascending : Line.Ascending lines)
    : Line.Ascending partition.free := by
  rw [valid.free]
  exact ascending.sublist List.filter_sublist

/-- A free number is that of a line of the file which no kept block includes. -/
theorem Partition.Valid.mem_free_iff {lines : List Line} {partition : Partition}
    (valid : partition.Valid lines) {n : Nat}
    : n ∈ partition.free.map Line.number
      ↔ n ∈ lines.map Line.number
        ∧ ∀ block ∈ partition.blocks, ¬ block.includes n = true := by
  simp only [valid.free, List.mem_map, mem_unclaimed_iff]
  constructor
  · intro given
    obtain ⟨line, ⟨member, apart⟩, rfl⟩ := given
    exact ⟨⟨line, member, rfl⟩, apart⟩
  · intro given
    obtain ⟨⟨line, member, rfl⟩, apart⟩ := given
    exact ⟨line, ⟨member, apart⟩, rfl⟩

theorem Partition.Valid.accept {lines : List Line} {partition : Partition}
    (valid : partition.Valid lines) (ascending : Line.Ascending lines) (block : Block)
    : (partition.accept block).Valid lines := by
  by_cases covered : covers partition.free block = true
  · rw [accept_of_covers covered]
    obtain ⟨nonempty, inFree⟩ :=
      (covers_iff (valid.ascending ascending).nodup block).mp covered
    refine {
      free := ?_
      nonempty := ?_
      within := ?_
      disjoint := ?_
    }
    · rw [valid.free, unclaimed_append]
    · intro other member
      rcases List.mem_append.mp member with earlier | new
      · exact valid.nonempty other earlier
      · exact List.mem_singleton.mp new ▸ nonempty
    · intro other member n inside
      rcases List.mem_append.mp member with earlier | new
      · exact valid.within other earlier n inside
      · rw [List.mem_singleton.mp new] at inside
        exact (valid.mem_free_iff.mp (inFree n inside)).1
    · refine List.pairwise_append.mpr ⟨valid.disjoint, List.pairwise_singleton _ _, ?_⟩
      intro earlier member new single n both
      rw [List.mem_singleton.mp single] at both
      exact (valid.mem_free_iff.mp (inFree n both.2)).2 earlier member both.1
  · rw [accept_of_not_covers covered]
    exact valid

theorem Partition.Valid.foldl_accept {lines : List Line} {partition : Partition}
    (valid : partition.Valid lines) (ascending : Line.Ascending lines) (offers : List Block)
    : (offers.foldl Partition.accept partition).Valid lines := by
  induction offers generalizing partition with
  | nil => exact valid
  | cons block rest ih => exact ih (valid.accept ascending block)

theorem Partition.Valid.pass {lines : List Line} {partition : Partition}
    (valid : partition.Valid lines) (ascending : Line.Ascending lines) (context : ClaimContext)
    (claimant : Claimant)
    : (partition.pass context claimant).Valid lines := by
  unfold Partition.pass
  split
  · exact valid
  · exact valid.foldl_accept ascending _

theorem Partition.Valid.foldl_pass {lines : List Line} {partition : Partition}
    (valid : partition.Valid lines) (ascending : Line.Ascending lines) (context : ClaimContext)
    (claimants : List Claimant)
    : (claimants.foldl (Partition.pass context) partition).Valid lines := by
  induction claimants generalizing partition with
  | nil => exact valid
  | cons claimant rest ih => exact ih (valid.pass ascending context claimant)

/-- Passes only take free lines away. -/
theorem free_pass_sublist (context : ClaimContext) (partition : Partition) (claimant : Claimant)
    : (partition.pass context claimant).free.Sublist partition.free := by
  unfold Partition.pass
  split
  · exact List.Sublist.refl _
  · refine List.foldlRecOn (motive := fun after : Partition => after.free.Sublist partition.free)
      _ _ (List.Sublist.refl _) (fun current below block _ => ?_)
    rw [Partition.accept]
    split
    · exact List.filter_sublist.trans below
    · exact below

theorem free_foldl_pass_sublist (context : ClaimContext) (partition : Partition)
    (claimants : List Claimant)
    : (claimants.foldl (Partition.pass context) partition).free.Sublist partition.free := by
  induction claimants generalizing partition with
  | nil => exact List.Sublist.refl _
  | cons claimant rest ih => exact (ih _).trans (free_pass_sublist context partition claimant)

-----------------------------------------------------------------------------------------
-- Proposals and what becomes of them
-----------------------------------------------------------------------------------------

/-- A block is proposed when the partition is `state`: the claimants before its own are done,
and so are the proposals of its own claimant before it. -/
def Proposed (context : ClaimContext) (lines : List Line) (claimants : List Claimant)
    (state : Partition) (block : Block)
    : Prop :=
  ∃ earlier claimant later offered rest,
    claimants = earlier ++ claimant :: later
    ∧ claimant.claim context
        (earlier.foldl (Partition.pass context) (Partition.initial lines)).free
      = offered ++ block :: rest
    ∧ state
      = offered.foldl Partition.accept
          (earlier.foldl (Partition.pass context) (Partition.initial lines))

/-- A block covers some line, and all its lines are lines of the file that no block kept so far
includes. -/
def Fits (lines : List Line) (state : Partition) (block : Block) : Prop :=
  block.startLine ≤ block.endLine
  ∧ ∀ n, block.includes n = true →
      n ∈ lines.map Line.number ∧ ∀ kept ∈ state.blocks, ¬ kept.includes n = true

theorem Partition.Valid.fits_iff {lines : List Line} {state : Partition}
    (valid : state.Valid lines) (ascending : Line.Ascending lines) (block : Block)
    : Fits lines state block ↔ covers state.free block = true := by
  rw [covers_iff (valid.ascending ascending).nodup]
  simp only [Fits, valid.mem_free_iff]

/-- Offers keep what was kept before them. -/
theorem mem_foldl_accept_of_mem {partition : Partition} {block : Block} (offers : List Block)
    (member : block ∈ partition.blocks)
    : block ∈ (offers.foldl Partition.accept partition).blocks := by
  induction offers generalizing partition with
  | nil => exact member
  | cons offer rest ih =>
      apply ih
      unfold Partition.accept
      split
      · exact List.mem_append_left _ member
      · exact member

theorem mem_foldl_pass_of_mem {partition : Partition} {block : Block} (context : ClaimContext)
    (claimants : List Claimant) (member : block ∈ partition.blocks)
    : block ∈ (claimants.foldl (Partition.pass context) partition).blocks := by
  induction claimants generalizing partition with
  | nil => exact member
  | cons claimant rest ih =>
      apply ih
      unfold Partition.pass
      split
      · exact member
      · exact mem_foldl_accept_of_mem _ member

/-- A block kept by a list of offers was there before or is an offer that was covered when its
turn came, by induction over the offers. -/
theorem mem_foldl_accept {partition : Partition} {offers : List Block} {block : Block}
    (member : block ∈ (offers.foldl Partition.accept partition).blocks)
    : block ∈ partition.blocks
      ∨ ∃ offered rest,
          offers = offered ++ block :: rest
          ∧ covers (offered.foldl Partition.accept partition).free block = true := by
  induction offers generalizing partition with
  | nil => exact Or.inl member
  | cons offer rest ih =>
      rcases ih member with earlier | ⟨offered, after, rfl, covered⟩
      · by_cases taken : covers partition.free offer = true
        · rw [accept_of_covers taken] at earlier
          rcases List.mem_append.mp earlier with old | new
          · exact Or.inl old
          · rw [List.mem_singleton.mp new]
            exact Or.inr ⟨[], rest, rfl, taken⟩
        · rw [accept_of_not_covers taken] at earlier
          exact Or.inl earlier
      · exact Or.inr ⟨offer :: offered, after, rfl, covered⟩

/-- The same for the passes of a list of claimants. -/
theorem mem_foldl_pass {context : ClaimContext} {partition : Partition}
    {claimants : List Claimant} {block : Block}
    (member : block ∈ (claimants.foldl (Partition.pass context) partition).blocks)
    : block ∈ partition.blocks
      ∨ ∃ earlier claimant later offered rest,
          claimants = earlier ++ claimant :: later
          ∧ claimant.claim context (earlier.foldl (Partition.pass context) partition).free
            = offered ++ block :: rest
          ∧ covers
              (offered.foldl Partition.accept
                (earlier.foldl (Partition.pass context) partition)).free
              block
            = true := by
  induction claimants generalizing partition with
  | nil => exact Or.inl member
  | cons claimant rest ih =>
      rcases ih member with first | ⟨earlier, own, later, offered, after, rfl, proposed, covered⟩
      · rw [Partition.pass] at first
        split at first
        · exact Or.inl first
        · rcases mem_foldl_accept first with old | ⟨offered, after, proposed, covered⟩
          · exact Or.inl old
          · exact Or.inr ⟨[], claimant, rest, offered, after, rfl, proposed, covered⟩
      · exact Or.inr
          ⟨claimant :: earlier, own, later, offered, after, rfl, proposed, covered⟩

/-- The partition after all claimants keeps exactly the proposals that fit. -/
theorem mem_foldl_pass_iff {lines : List Line} (ascending : Line.Ascending lines)
    (context : ClaimContext) (claimants : List Claimant) (block : Block)
    : block
        ∈ (claimants.foldl (Partition.pass context) (Partition.initial lines)).blocks
      ↔ ∃ state, Proposed context lines claimants state block ∧ Fits lines state block := by
  have valid (earlier : List Claimant) (offered : List Block) :=
    ((Partition.valid_initial lines).foldl_pass ascending context earlier).foldl_accept
      ascending offered
  constructor
  · intro member
    rcases mem_foldl_pass member with none | ⟨earlier, own, later, offered, rest, split,
      proposed, covered⟩
    · exact absurd none List.not_mem_nil
    · exact ⟨_, ⟨earlier, own, later, offered, rest, split, proposed, rfl⟩,
        ((valid earlier offered).fits_iff ascending block).mpr covered⟩
  · intro given
    obtain ⟨state, ⟨earlier, own, later, offered, rest, rfl, proposed, rfl⟩, fits⟩ := given
    have covered := ((valid earlier offered).fits_iff ascending block).mp fits
    rw [List.foldl_append, List.foldl_cons]
    apply mem_foldl_pass_of_mem
    rw [Partition.pass]
    split
    · next spent =>
        -- A block that fits has a free line, but nothing was free before its claimant.
        have inside := fits.2 block.startLine
          ((block.includes_iff _).mpr ⟨Nat.le_refl _, fits.1⟩)
        have untouched := (valid earlier []).mem_free_iff.mpr ⟨inside.1, fun kept member =>
          inside.2 kept (mem_foldl_accept_of_mem offered member)⟩
        rw [List.foldl_nil, spent] at untouched
        exact absurd untouched List.not_mem_nil
    · rw [proposed, List.foldl_append, List.foldl_cons, accept_of_covers covered]
      exact mem_foldl_accept_of_mem rest (by simp)

end Registry

end Traceability
