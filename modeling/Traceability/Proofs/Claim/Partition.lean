import Mathlib.Data.List.Pairwise
import Traceability.Proofs.Claim.Acceptance
import Traceability.Proofs.Text.Pieces

/-! The registry cuts every file into blocks, whatever its claimants propose.
The remainder runs last and takes every run of lines that is still free. As all its blocks are
kept, no line is left over.
-/

namespace Traceability.Registry

-----------------------------------------------------------------------------------------
-- Sweeps that stay inside runs lose no block
-----------------------------------------------------------------------------------------

/-- Taking a block out of ascending lines leaves those before it and those after it. -/
theorem unclaimed_run {skipped rest : List Line} {line : Line} {count : Nat}
    (ascending : Line.Ascending (skipped ++ line :: rest))
    (inRun : count ≤ line.runLength rest) (content : Content)
    : unclaimed (skipped ++ line :: rest) [Block.ofLines line (rest.take count) content]
      = skipped ++ rest.drop count := by
  obtain ⟨before, own, after⟩ := Block.ofLines_includes_parts ascending inRun content
  have split : line :: rest = (line :: rest.take count) ++ rest.drop count := by
    rw [List.cons_append, List.take_append_drop]
  rw [split, unclaimed]
  simp only [List.any_cons, List.any_nil, Bool.or_false, List.filter_append]
  rw [List.filter_eq_self.mpr, List.filter_eq_nil_iff.mpr, List.filter_eq_self.mpr,
    List.nil_append]
  · intro other late
    simp [after other late]
  · intro inside member
    simp [own inside member]
  · intro other early
    simp [before other early]

/-- Every block of a sweep inside runs is kept when its lines are offered. Witness: induction
along the sweep; the lines passed over stay free in front of those still ahead. -/
theorem foldl_accept_sweep {opens? : Line → List Line → Option (Nat × Content)}
    (contiguous : Block.Contiguous opens?) (blocks : List Block) (skipped lines : List Line)
    (ascending : Line.Ascending (skipped ++ lines))
    : ((Block.sweep opens? lines).foldl Partition.accept
          { free := skipped ++ lines, blocks }).blocks
      = blocks ++ Block.sweep opens? lines := by
  induction lines using Block.sweep.induct opens? generalizing blocks skipped with
  | case1 => simp [Block.sweep]
  | case2 line rest passed ih =>
      have next := ih blocks (skipped ++ [line]) (by simpa using ascending)
      rw [Block.sweep, passed]
      simpa using next
  | case3 line rest count content opened ih =>
      have inRun := contiguous line rest count content opened
      have covered : covers (skipped ++ line :: rest)
          (Block.ofLines line (rest.take count) content) = true := by
        refine (covers_iff ascending.nodup _).mpr ⟨?_, fun n inside => ?_⟩
        · rw [Block.ofLines_endLine line rest count content inRun]
          exact Nat.le_add_right _ _
        · have own := (Block.ofLines_includes_iff line rest count content inRun n).mp inside
          have sub : (line :: rest.take count).Sublist (skipped ++ line :: rest) :=
            ((List.take_sublist count rest).cons_cons line).trans
              (List.sublist_append_right _ _)
          exact (sub.map Line.number).mem own
      have left : (skipped ++ rest.drop count).Sublist (skipped ++ line :: rest) :=
        ((List.drop_sublist count rest).trans (List.sublist_cons_self line rest)).append_left _
      rw [Block.sweep, opened, List.foldl_cons, accept_of_covers covered,
        unclaimed_run ascending inRun content, ih _ skipped (ascending.sublist left)]
      simp

/-- A run of the remainder ends where the numbers stop being consecutive. -/
theorem contiguous_remainder
    : Block.Contiguous (fun line rest => some (line.runLength rest, Content.remainder)) := by
  intro line rest count content opened
  simp only [Option.some.injEq, Prod.mk.injEq] at opened
  exact Nat.le_of_eq opened.1.symm

/-- The remainder takes the run of the first line and goes on behind it. -/
theorem remainder_cons (context : ClaimContext) (line : Line) (rest : List Line)
    : Claim.remainder.claim context (line :: rest)
      = Block.ofLines line (rest.take (line.runLength rest)) .remainder
        :: Claim.remainder.claim context (rest.drop (line.runLength rest)) := by
  simp only [Claim.remainder]
  rw [Block.sweep]

/-- Every line is in some block of the remainder, by induction along the runs. -/
theorem remainder_includes (context : ClaimContext) (lines : List Line) {line : Line}
    (member : line ∈ lines)
    : ∃ block ∈ Claim.remainder.claim context lines, block.includes line.number = true := by
  induction lines using Line.run_induction with
  | nil => exact absurd member List.not_mem_nil
  | run first rest ih =>
      rw [remainder_cons]
      simp only [List.mem_cons, exists_eq_or_imp]
      rw [← Line.run_append_drop first rest] at member
      rcases List.mem_append.mp member with own | later
      · exact Or.inl ((Block.ofLines_includes_iff first rest _ _ (Nat.le_refl _) _).mpr
          (List.mem_map_of_mem own))
      · exact Or.inr (ih later)

/-- The remainder leaves no line free. -/
theorem pass_remainder_free {lines : List Line} (ascending : Line.Ascending lines)
    {partition : Partition} (valid : partition.Valid lines) (context : ClaimContext)
    : (partition.pass context Claim.remainder).free = [] := by
  have next := valid.pass ascending context Claim.remainder
  by_cases spent : partition.free = []
  · rw [Partition.pass, if_pos spent]
    exact spent
  · have kept : (partition.pass context Claim.remainder).blocks
        = partition.blocks ++ Claim.remainder.claim context partition.free := by
      rw [Partition.pass, if_neg spent]
      exact foldl_accept_sweep contiguous_remainder partition.blocks [] partition.free
        (valid.ascending ascending)
    rw [next.free, List.eq_nil_iff_forall_not_mem, kept]
    intro line left
    obtain ⟨member, apart⟩ := mem_unclaimed_iff.mp left
    have free : line ∈ partition.free := by
      rw [valid.free]
      exact mem_unclaimed_iff.mpr
        ⟨member, fun block old => apart block (List.mem_append_left _ old)⟩
    obtain ⟨block, own, inside⟩ := remainder_includes context partition.free free
    exact apart block (List.mem_append_right _ own) inside

-----------------------------------------------------------------------------------------
-- The blocks of a file
-----------------------------------------------------------------------------------------

/-- The claimants of a registry in the order in which they run, the remainder last. -/
def passes (registry : Registry) : List Claimant :=
  registry.claimants ++ [Claim.remainder]

/-- The partition after all passes. -/
def final (registry : Registry) (context : ClaimContext) (lines : List Line) : Partition :=
  registry.passes.foldl (Partition.pass context) (Partition.initial lines)

theorem final_valid {lines : List Line} (ascending : Line.Ascending lines)
    (registry : Registry) (context : ClaimContext)
    : (registry.final context lines).Valid lines :=
  (Partition.valid_initial lines).foldl_pass ascending context _

theorem final_free {lines : List Line} (ascending : Line.Ascending lines)
    (registry : Registry) (context : ClaimContext)
    : (registry.final context lines).free = [] := by
  rw [final, passes, List.foldl_append]
  exact pass_remainder_free ascending
    ((Partition.valid_initial lines).foldl_pass ascending context _) context

/-- The blocks of a file are those of the partition after all passes, in another order. -/
theorem blocks_perm (registry : Registry) (context : ClaimContext) (lines : List Line)
    : (registry.blocks context lines).Perm (registry.final context lines).blocks :=
  List.mergeSort_perm _ _

/-- Each block of a file ends before the next one starts. -/
theorem blocks_pairwise_before {lines : List Line} (ascending : Line.Ascending lines)
    (registry : Registry) (context : ClaimContext)
    : (registry.blocks context lines).Pairwise (fun a b => a.endLine < b.startLine) := by
  have valid := registry.final_valid ascending context
  exact Block.pairwise_before_mergeSort valid.nonempty valid.disjoint

theorem mem_blocks_nonempty {lines : List Line} (ascending : Line.Ascending lines)
    {registry : Registry} {context : ClaimContext} {block : Block}
    (member : block ∈ registry.blocks context lines)
    : block.startLine ≤ block.endLine :=
  (registry.final_valid ascending context).nonempty block
    ((registry.blocks_perm context lines).mem_iff.mp member)

/-- Two blocks of a file share no line. -/
theorem disjoint_of_mem_blocks {lines : List Line} (ascending : Line.Ascending lines)
    {registry : Registry} {context : ClaimContext} {a b : Block}
    (memberA : a ∈ registry.blocks context lines) (memberB : b ∈ registry.blocks context lines)
    (distinct : a ≠ b)
    : a.Disjoint b := by
  have symmetric : Std.Symm Block.Disjoint := ⟨fun _ _ => Block.Disjoint.symm⟩
  have perm := registry.blocks_perm context lines
  exact (registry.final_valid ascending context).disjoint.forall (perm.mem_iff.mp memberA)
    (perm.mem_iff.mp memberB) distinct

/-- The blocks of a file include exactly the numbers of its lines. -/
theorem exists_block_iff {lines : List Line} (ascending : Line.Ascending lines)
    (registry : Registry) (context : ClaimContext) (n : Nat)
    : (∃ block ∈ registry.blocks context lines, block.includes n = true)
      ↔ n ∈ lines.map Line.number := by
  have valid := registry.final_valid ascending context
  simp only [(registry.blocks_perm context lines).mem_iff]
  constructor
  · intro ⟨block, member, inside⟩
    exact valid.within block member n inside
  · intro member
    by_contra none
    have free := valid.mem_free_iff.mpr
      ⟨member, fun block kept inside => none ⟨block, kept, inside⟩⟩
    rw [registry.final_free ascending context] at free
    exact absurd free List.not_mem_nil

/-- A registry cuts every text into blocks, whatever its claimants propose: the blocks ascend,
none is empty, no two overlap, and together they include exactly the lines of the text. It
keeps exactly the proposals whose range lies in the lines that no earlier claimant and no
earlier proposal of the same claimant got. -/
theorem parseFile_partition (registry : Registry) (scheme : Scheme) (path text : String)
    : let file := registry.parseFile scheme path text
      file.lineCount
          = text.toList.count '\n' + (Text.endsInsideLine text.toList).toNat
        ∧ (∀ block ∈ file.blocks, block.startLine ≤ block.endLine)
        ∧ file.blocks.Pairwise Block.Disjoint
        ∧ file.blocks.Pairwise (fun a b => a.startLine < b.startLine)
        ∧ (∀ n,
            (∃ block ∈ file.blocks, block.includes n = true)
            ↔ 1 ≤ n ∧ n ≤ file.lineCount)
        ∧ ∀ block,
            block ∈ file.blocks
            ↔ ∃ state,
                Proposed { path, scheme } (Line.ofText text) registry.passes state block
                ∧ Fits (Line.ofText text) state block := by
  intro file
  have ascending := Line.ascending_ofText text
  have blocks : file.blocks = registry.blocks { path, scheme } (Line.ofText text) := rfl
  have count : file.lineCount = (Text.lines text.toList).length := Line.length_ofText text
  have nonempty (block : Block) (member : block ∈ file.blocks) :=
    mem_blocks_nonempty ascending (blocks ▸ member)
  have before := registry.blocks_pairwise_before ascending { path, scheme }
  rw [← blocks] at before
  refine ⟨?_, nonempty, ?_, ?_, ?_, ?_⟩
  · rw [count, Text.length_lines]
  · refine before.imp (fun {a b} ends n both => ?_)
    rw [Block.includes_iff, Block.includes_iff] at both
    omega
  · refine before.imp_of_mem (fun {a b} member _ ends => ?_)
    exact Nat.lt_of_le_of_lt (nonempty a member) ends
  · intro n
    rw [blocks, registry.exists_block_iff ascending, Line.map_number_ofText, count,
      List.mem_range'_1]
    omega
  · intro block
    rw [blocks, (registry.blocks_perm _ _).mem_iff]
    exact mem_foldl_pass_iff ascending _ registry.passes block

end Traceability.Registry
