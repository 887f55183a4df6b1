import Mathlib
import Traceability.Proofs.Claim.Standard
import Traceability.Proofs.Config.Compile
import Traceability.Proofs.Text.Search

/-! What claimants owe the registry.
A registry drops a proposal that covers no line or a line that is taken. The standard claimants
propose blocks of lines that they were shown, in order and without overlap, so the registry
drops none of them, and the texts of the blocks of a file are the lines of the file.
-/

namespace Traceability

-----------------------------------------------------------------------------------------
-- Blocks of lines that were shown
-----------------------------------------------------------------------------------------

/-- Lines in order are determined by which lines they are. -/
theorem Line.Ascending.eq_of_mem_iff {lines others : List Line} (ascending : Line.Ascending lines)
    (ascendingToo : Line.Ascending others) (same : ∀ line, line ∈ lines ↔ line ∈ others)
    : lines = others := by
  have distinct {list : List Line} (h : Line.Ascending list) : list.Nodup :=
    h.imp (fun below same => by simp [same] at below)
  have perm : lines.Perm others :=
    (List.perm_ext_iff_of_nodup (distinct ascending) (distinct ascendingToo)).mpr same
  refine perm.eq_of_pairwise ?_ ascending ascendingToo
  intro a b _ _ below above
  exact absurd below (Nat.lt_asymm above)

namespace Block

/-- A block covers some line, every number of its range is that of a line, and its text is that
of these lines. -/
structure Whole (lines : List Line) (block : Block) : Prop where
  nonempty : block.startLine ≤ block.endLine
  present : ∀ n, block.includes n = true → n ∈ lines.map Line.number
  rawText
    : block.rawText = Line.joinTexts (lines.filter (fun line => block.includes line.number))

theorem whole_ofLines {lines rest : List Line} {line : Line} {count : Nat}
    (ascending : Line.Ascending lines) (behind : line :: rest <:+ lines)
    (inRun : count ≤ line.runLength rest) (content : Content)
    : (ofLines line (rest.take count) content).Whole lines := by
  obtain ⟨skipped, rfl⟩ := behind
  obtain ⟨before, own, after⟩ := ofLines_includes_parts ascending inRun content
  have split : line :: rest = (line :: rest.take count) ++ rest.drop count := by
    rw [List.cons_append, List.take_append_drop]
  constructor
  · rw [ofLines_endLine line rest count content inRun]
    exact Nat.le_add_right _ _
  · intro n inside
    have listed := (ofLines_includes_iff line rest count content inRun n).mp inside
    have sub : (line :: rest.take count).Sublist (skipped ++ line :: rest) :=
      ((List.take_sublist count rest).cons_cons line).trans (List.sublist_append_right _ _)
    exact (sub.map Line.number).mem listed
  · rw [split, List.filter_append, List.filter_append, List.filter_eq_nil_iff.mpr,
      List.filter_eq_self.mpr own, List.filter_eq_nil_iff.mpr, List.nil_append, List.append_nil]
    · rfl
    · intro other late
      simp [after other late]
    · intro other early
      simp [before other early]

/-- A block that is whole among some lines is whole among more of them. Witness: no further line
has one of its numbers. -/
theorem Whole.of_sublist {free lines : List Line} {block : Block} (whole : block.Whole free)
    (ascending : Line.Ascending lines) (sub : free.Sublist lines)
    : block.Whole lines := by
  have same
      : free.filter (fun line => block.includes line.number)
        = lines.filter (fun line => block.includes line.number) := by
    refine ((ascending.sublist sub).sublist List.filter_sublist).eq_of_mem_iff
      (ascending.sublist List.filter_sublist) (fun line => ?_)
    rw [List.mem_filter, List.mem_filter]
    refine and_congr_left (fun inside => ⟨fun member => sub.mem member, fun member => ?_⟩)
    exact (ascending.number_mem_iff sub.subset member).mp (whole.present line.number inside)
  exact {
    nonempty := whole.nonempty
    present := fun n inside => (sub.map Line.number).mem (whole.present n inside)
    rawText := same ▸ whole.rawText
  }

variable {opens? : Line → List Line → Option (Nat × Content)}

theorem whole_of_mem_sweep (contiguous : Contiguous opens?) {lines : List Line}
    (ascending : Line.Ascending lines) {block : Block} (member : block ∈ sweep opens? lines)
    : block.Whole lines := by
  obtain ⟨line, rest, count, content, behind, opened, rfl⟩ := mem_sweep member
  exact whole_ofLines ascending behind (contiguous line rest count content opened) content

/-- Each block of a sweep ends before the next one starts. Witness: induction along the sweep,
which goes on behind the lines of a block. -/
theorem sweep_pairwise_before (contiguous : Contiguous opens?) {lines : List Line}
    (ascending : Line.Ascending lines)
    : (sweep opens? lines).Pairwise (fun a b => a.endLine < b.startLine) := by
  induction lines using sweep.induct opens? with
  | case1 =>
      rw [sweep]
      exact .nil
  | case2 line rest passed ih =>
      rw [sweep, passed]
      exact ih (ascending.sublist (List.sublist_cons_self line rest))
  | case3 line rest count content opened ih =>
      have inRun := contiguous line rest count content opened
      have further : (rest.drop count).Sublist (line :: rest) :=
        (List.drop_sublist count rest).trans (List.sublist_cons_self line rest)
      have whole : Line.Ascending ([] ++ line :: rest) := ascending
      obtain ⟨-, -, after⟩ := ofLines_includes_parts whole inRun content
      rw [sweep, opened, List.pairwise_cons]
      refine ⟨?_, ih (ascending.sublist further)⟩
      intro later member
      obtain ⟨next, more, _, _, behind, -, rfl⟩ := mem_sweep member
      have ahead : next ∈ rest.drop count := behind.mem List.mem_cons_self
      have outside := after next ahead
      have above := List.rel_of_pairwise_cons ascending (List.mem_of_mem_drop ahead)
      rw [← Bool.not_eq_true, includes_iff] at outside
      have start : (ofLines line (rest.take count) content).startLine = line.number := rfl
      have next' : ∀ lines content, (ofLines next lines content).startLine = next.number :=
        fun _ _ => rfl
      rw [next']
      omega

theorem disjoint_of_before {a b : Block} (before : a.endLine < b.startLine) : a.Disjoint b := by
  intro n both
  rw [includes_iff, includes_iff] at both
  omega

/-- Of blocks in order at most one includes a line. -/
theorem eq_of_includes {blocks : List Block}
    (ordered : blocks.Pairwise (fun a b => a.endLine < b.startLine)) {a b : Block}
    (memberA : a ∈ blocks) (memberB : b ∈ blocks) {n : Nat} (insideA : a.includes n = true)
    (insideB : b.includes n = true)
    : a = b := by
  have symmetric : Std.Symm Disjoint := ⟨fun _ _ => Disjoint.symm⟩
  by_contra distinct
  exact (ordered.imp disjoint_of_before).forall memberA memberB distinct n ⟨insideA, insideB⟩

end Block

-----------------------------------------------------------------------------------------
-- The contract
-----------------------------------------------------------------------------------------

/-- What a claimant owes the registry: whatever lines it is shown, it proposes whole blocks of
them, and each block ends before the next one starts. -/
def Claimant.KeepsContract (claimant : Claimant) : Prop :=
  ∀ (context : ClaimContext) (lines : List Line), Line.Ascending lines →
    (∀ block ∈ claimant.claim context lines, block.Whole lines)
    ∧ (claimant.claim context lines).Pairwise (fun a b => a.endLine < b.startLine)

namespace Claim

/-- A claimant keeps the contract by sweeping inside runs. -/
theorem keepsContract_of_sweep {claimant : Claimant}
    (opens? : ClaimContext → Line → List Line → Option (Nat × Content))
    (contiguous : ∀ context, Block.Contiguous (opens? context))
    (sweeps : ∀ context, claimant.claim context = Block.sweep (opens? context))
    : claimant.KeepsContract := by
  intro context lines ascending
  rw [sweeps]
  exact ⟨fun _ member => Block.whole_of_mem_sweep (contiguous context) ascending member,
    Block.sweep_pairwise_before (contiguous context) ascending⟩

/-- A comment ends inside the run in which it opens. -/
theorem Comment.contiguous (scheme : Scheme) : Block.Contiguous (opens? scheme) := by
  intro line rest count content found
  obtain ⟨afterOpen, -, found⟩ := Option.bind_eq_some_iff.mp found
  split at found
  · obtain ⟨rfl, -⟩ := Prod.mk.inj (Option.some.inj found)
    exact Nat.zero_le _
  · obtain ⟨⟨inner, last⟩, ends, found⟩ := Option.bind_eq_some_iff.mp found
    obtain ⟨rfl, -⟩ := Prod.mk.inj (Option.some.inj found)
    obtain ⟨-, -, inRun, -⟩ := Line.upTo?_spec ends
    exact inRun

/-- A requirement ends inside the run in which it opens. -/
theorem Requirement.contiguous (scheme : Scheme) : Block.Contiguous (opens? scheme) := by
  intro line rest count content found
  obtain ⟨heading, inner, last, -, ends, rfl, -⟩ := Requirement.of_opens? found
  obtain ⟨-, -, inRun, -⟩ := Line.upTo?_spec ends
  exact inRun

/-- A journey ends inside the run in which it opens. -/
theorem Journey.contiguous (scheme : Scheme) : Block.Contiguous (opens? scheme) := by
  intro line rest count content found
  obtain ⟨heading, -, found⟩ := Option.bind_eq_some_iff.mp found
  obtain ⟨⟨inner, last⟩, ends, found⟩ := Option.bind_eq_some_iff.mp found
  obtain ⟨rfl, -⟩ := Prod.mk.inj (Option.some.inj found)
  obtain ⟨-, -, inRun, -⟩ := Line.upTo?_spec ends
  exact inRun

namespace Reference

/-- The continuations of a marker go on in its run. -/
theorem length_continuations_le (idPrefix : String) (line : Line) (rest : List Line)
    : (continuations idPrefix line rest).length ≤ line.runLength rest := by
  induction rest generalizing line with
  | nil => exact Nat.le_refl 0
  | cons next rest ih =>
      rw [continuations, Line.runLength]
      by_cases follows : next.number = line.number + 1
      · rw [if_neg (fun gap => gap follows), if_pos follows]
        split
        · exact Nat.zero_le _
        · exact Nat.succ_le_succ (ih next)
      · rw [if_pos follows]
        exact Nat.zero_le _

/-- A marker takes no more lines than its continuations. -/
theorem contiguous_marked (make : Traceability.Reference → Content) (idPrefix keyword : String)
    : Block.Contiguous (fun line rest =>
        (marked? idPrefix keyword line rest).map (fun (count, targets) =>
          (count, make { targets, label := none }))) := by
  intro line rest count content found
  obtain ⟨⟨further, targets⟩, marked, same⟩ := Option.map_eq_some_iff.mp found
  obtain ⟨rfl, -⟩ := Prod.mk.inj same
  obtain ⟨tail, -, ⟨rfl, -⟩ | ⟨rfl, -⟩⟩ := marked?_cases marked
  · exact length_continuations_le idPrefix line rest
  · exact Nat.zero_le _

/-- Function names on lines that no marker took make blocks of one line each, which fit between
those of the markers. -/
theorem withDefinitions_keeps (scheme : Scheme) {marked : List Block} {lines : List Line}
    (ascending : Line.Ascending lines) (whole : ∀ block ∈ marked, block.Whole lines)
    (before : marked.Pairwise (fun a b => a.endLine < b.startLine))
    : (∀ block ∈ withDefinitions scheme marked lines, block.Whole lines)
      ∧ (withDefinitions scheme marked lines).Pairwise (fun a b => a.endLine < b.startLine) := by
  have defined {block : Block}
      (member : block ∈ (unclaimed lines marked).filterMap (ofDefinition? scheme))
      : block.Whole lines
        ∧ ∃ line ∈ unclaimed lines marked,
            block.startLine = line.number ∧ block.endLine = line.number := by
    obtain ⟨line, free, found⟩ := List.mem_filterMap.mp member
    obtain ⟨reference, rfl⟩ := of_definition found
    obtain ⟨skipped, rest, rfl⟩ := List.append_of_mem (mem_unclaimed_iff.mp free).1
    have none : 0 ≤ line.runLength rest := Nat.zero_le _
    exact ⟨Block.whole_ofLines ascending (List.suffix_append skipped _) none _, line, free, rfl,
      rfl⟩
  have all {block : Block}
      (member : block ∈ marked ++ (unclaimed lines marked).filterMap (ofDefinition? scheme))
      : block.Whole lines := by
    rcases List.mem_append.mp member with old | new
    · exact whole block old
    · exact (defined new).1
  refine ⟨fun block member => all (List.mem_mergeSort.mp member),
    Block.pairwise_before_mergeSort (fun block member => (all member).nonempty) ?_⟩
  refine List.pairwise_append.mpr ⟨before.imp Block.disjoint_of_before, ?_, ?_⟩
  · refine List.pairwise_filterMap.mpr ((ascending.sublist List.filter_sublist).imp ?_)
    intro line later above block found other foundLater
    obtain ⟨_, rfl⟩ := of_definition found
    obtain ⟨_, rfl⟩ := of_definition foundLater
    exact Block.disjoint_of_before above
  · intro block old other new n both
    obtain ⟨-, line, free, starts, ends⟩ := defined new
    have here : n = line.number := by
      rw [Block.includes_iff other] at both
      omega
    exact (mem_unclaimed_iff.mp free).2 block old (here ▸ both.1)

end Reference

theorem keepsContract_testReference : testReference.KeepsContract := by
  intro context lines ascending
  have contiguous := Reference.contiguous_marked .testReference context.scheme.idPrefix
    context.scheme.validatesKeyword
  have whole := fun block (member : block ∈ Block.sweep _ lines) =>
    Block.whole_of_mem_sweep contiguous ascending member
  have before := Block.sweep_pairwise_before contiguous ascending
  simp only [testReference]
  split
  · exact Reference.withDefinitions_keeps context.scheme ascending whole before
  · exact ⟨whole, before⟩

theorem keepsContract_of_mem {claimant : Claimant}
    (known : claimant ∈ [comment, requirement, journey, codeReference, testReference, remainder])
    : claimant.KeepsContract := by
  simp only [List.mem_cons, List.not_mem_nil, or_false] at known
  rcases known with rfl | rfl | rfl | rfl | rfl | rfl
  · exact keepsContract_of_sweep _ (fun context => Comment.contiguous context.scheme)
      (fun _ => rfl)
  · exact keepsContract_of_sweep _ (fun context => Requirement.contiguous context.scheme)
      (fun _ => rfl)
  · exact keepsContract_of_sweep _ (fun context => Journey.contiguous context.scheme)
      (fun _ => rfl)
  · exact keepsContract_of_sweep _
      (fun context => Reference.contiguous_marked .codeReference context.scheme.idPrefix
        context.scheme.implementsKeyword)
      (fun _ => rfl)
  · exact keepsContract_testReference
  · exact keepsContract_of_sweep _ (fun _ => Registry.contiguous_remainder) (fun _ => rfl)

end Claim

-----------------------------------------------------------------------------------------
-- No proposal is dropped
-----------------------------------------------------------------------------------------

namespace Registry

/-- What is kept after some offers was kept before them or is one of them. -/
theorem mem_offers_of_mem {partition : Partition} {offers : List Block} {block : Block}
    (member : block ∈ (offers.foldl Partition.accept partition).blocks)
    : block ∈ partition.blocks ∨ block ∈ offers := by
  rcases mem_foldl_accept member with old | ⟨offered, rest, rfl, -⟩
  · exact Or.inl old
  · exact Or.inr (by simp)

/-- A proposal of a claimant that keeps the contract fits when its turn comes. Witness: its lines
were free when the claimant looked, and the proposals before it took none of them. -/
theorem fits_of_proposed {context : ClaimContext} {lines : List Line}
    (ascending : Line.Ascending lines) {claimants : List Claimant}
    (keeps : ∀ claimant ∈ claimants, claimant.KeepsContract) {state : Partition} {block : Block}
    (proposed : Proposed context lines claimants state block)
    : Fits lines state block := by
  obtain ⟨earlier, claimant, later, offered, rest, rfl, claims, rfl⟩ := proposed
  have valid := (Partition.valid_initial lines).foldl_pass ascending context earlier
  obtain ⟨whole, before⟩ := keeps claimant (by simp) context _ (valid.ascending ascending)
  rw [claims] at whole before
  have own := whole block (by simp)
  obtain ⟨-, -, apart⟩ := List.pairwise_append.mp before
  refine ⟨own.nonempty, fun n inside => ?_⟩
  obtain ⟨present, free⟩ := valid.mem_free_iff.mp (own.present n inside)
  refine ⟨present, fun kept member both => ?_⟩
  rcases mem_offers_of_mem member with old | new
  · exact free kept old both
  · exact Block.disjoint_of_before (apart kept new block List.mem_cons_self) n ⟨both, inside⟩

-----------------------------------------------------------------------------------------
-- The texts of the blocks
-----------------------------------------------------------------------------------------

/-- Blocks in order that cover all lines cut the lines into pieces. -/
theorem flatMap_included {lines : List Line} (ascending : Line.Ascending lines)
    {blocks : List Block} (before : blocks.Pairwise (fun a b => a.endLine < b.startLine))
    (covered : ∀ line ∈ lines, ∃ block ∈ blocks, block.includes line.number = true)
    : blocks.flatMap (fun block => lines.filter (fun line => block.includes line.number))
      = lines := by
  refine Line.Ascending.eq_of_mem_iff ?_ ascending (fun line => ?_)
  · refine List.pairwise_flatMap.mpr ⟨fun block _ => ascending.sublist List.filter_sublist, ?_⟩
    refine before.imp ?_
    intro a b ends line here other there
    have inside := (List.mem_filter.mp here).2
    have insideToo := (List.mem_filter.mp there).2
    rw [Block.includes_iff] at inside insideToo
    omega
  · rw [List.mem_flatMap]
    constructor
    · intro given
      obtain ⟨block, -, member⟩ := given
      exact List.mem_of_mem_filter member
    · intro member
      obtain ⟨block, own, inside⟩ := covered line member
      exact ⟨block, own, List.mem_filter.mpr ⟨member, inside⟩⟩

/-- If all claimants keep the contract, the texts of the blocks of a file are its lines. -/
theorem join_rawText {registry : Registry} {context : ClaimContext} {lines : List Line}
    (ascending : Line.Ascending lines)
    (keeps : ∀ claimant ∈ registry.passes, claimant.KeepsContract)
    : Text.join ['\n'] ((registry.blocks context lines).map (fun block => block.rawText.toList))
      = Text.join ['\n'] (lines.map (fun line => line.text.toList)) := by
  let groups := (registry.blocks context lines).map (fun block =>
    (lines.filter (fun line => block.includes line.number)).map (fun line => line.text.toList))
  have whole {block : Block} (member : block ∈ registry.blocks context lines)
      : block.Whole lines := by
    obtain ⟨claimant, known, free, sub, claimed⟩ := mem_blocks_claim member
    exact (keeps claimant known context free (ascending.sublist sub)).1 block claimed
      |>.of_sublist ascending sub
  have texts
      : (registry.blocks context lines).map (fun block => block.rawText.toList)
        = groups.map (Text.join ['\n']) := by
    rw [List.map_map]
    refine List.map_congr_left (fun block member => ?_)
    rw [(whole member).rawText, Line.joinTexts, String.toList_ofList]
    rfl
  have nonempty : ∀ group ∈ groups, group ≠ [] := by
    intro group member
    obtain ⟨block, own, rfl⟩ := List.mem_map.mp member
    have first := (whole own).present block.startLine
      ((block.includes_iff _).mpr ⟨Nat.le_refl _, (whole own).nonempty⟩)
    obtain ⟨line, listed, starts⟩ := List.mem_map.mp first
    have inside : block.includes line.number = true := by
      rw [starts, Block.includes_iff]
      exact ⟨Nat.le_refl _, (whole own).nonempty⟩
    exact List.ne_nil_of_mem (List.mem_map_of_mem (List.mem_filter.mpr ⟨listed, inside⟩))
  have all : groups.flatten = lines.map (fun line => line.text.toList) := by
    rw [← flatMap_included ascending (registry.blocks_pairwise_before ascending context)
      (fun line member => (registry.exists_block_iff ascending context line.number).mpr
        (List.mem_map_of_mem member)), List.map_flatMap, List.flatMap_def]
  rw [texts, Text.join_map_join ['\n'] nonempty, all]

/-- The standard claimants propose whole blocks of the lines that they are shown, in order and
without overlap. So the registry drops no proposal of theirs, and the texts of the blocks of a
file, one under the other, are the lines of the file. -/
theorem standard_claims_whole
    : (∀ claimant ∈ [Claim.comment, Claim.requirement, Claim.journey, Claim.codeReference,
          Claim.testReference, Claim.remainder],
        claimant.KeepsContract)
      ∧ ∀ scheme path text,
          (∀ state block,
            Proposed { path, scheme } (Line.ofText text) standard.passes state block →
              Fits (Line.ofText text) state block)
          ∧ Text.join ['\n']
                ((standard.parseFile scheme path text).blocks.map
                  (fun block => block.rawText.toList))
              = Text.join ['\n'] (Text.lines text.toList) := by
  have keeps : ∀ claimant ∈ standard.passes, claimant.KeepsContract :=
    fun _ known => Claim.keepsContract_of_mem known
  refine ⟨fun _ known => Claim.keepsContract_of_mem known, fun scheme path text => ⟨?_, ?_⟩⟩
  · intro state block proposed
    exact fits_of_proposed (Line.ascending_ofText text) keeps proposed
  · have numbered (first : Nat) (texts : List (List Char))
        : (Line.numbered first texts).map (fun line => line.text.toList) = texts := by
      induction texts generalizing first with
      | nil => rfl
      | cons s rest ih => simp [Line.numbered, ih]
    have lines := numbered 1 (Text.lines text.toList)
    rw [Registry.parseFile, join_rawText (Line.ascending_ofText text) keeps, Line.ofText, lines]

/-- Lines of a test file between which others were taken. -/
def gappedLines : List Line := [
  ⟨1, "# Validates:"⟩, ⟨2, "#   REQ-p00001"⟩, ⟨4, "def test_REQ_p00002_A():"⟩,
  ⟨7, "# REQ-p00003"⟩, ⟨8, "# Validates: REQ-p00004"⟩]

theorem standard_claims_whole_gappedLines
    : let context : ClaimContext := { path := "tests/a.py", scheme := Config.defaultScheme }
      let blocks := Claim.testReference.claim context gappedLines
      Line.Ascending gappedLines
        ∧ blocks.map (fun block => (block.startLine, block.endLine)) = [(1, 2), (4, 4), (8, 8)]
        ∧ ∀ block ∈ blocks, block.Whole gappedLines := by
  have ascending : Line.Ascending gappedLines := by
    unfold Line.Ascending
    decide
  exact ⟨ascending, by cbv,
    (standard_claims_whole.1 Claim.testReference (by simp) _ gappedLines ascending).1⟩

end Registry

end Traceability
