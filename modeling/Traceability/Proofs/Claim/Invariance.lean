import Traceability.Proofs.Claim.Reclosing

/-! The blocks of a file under a change of closing markers.
A changed line must close a requirement of the file. Then no comment holds it, and once the
requirements are taken no claimant sees it. All blocks stay where they are, and only what the
requirements read from their closing markers changes.
-/

namespace Traceability

open Text

variable {edit : Line → Line} {lines : List Line}

-----------------------------------------------------------------------------------------
-- Blocks
-----------------------------------------------------------------------------------------

namespace Block

theorem ofLines_map (number : ∀ line, (edit line).number = line.number) (line : Line)
    (further : List Line) (content : Content)
    : (ofLines (edit line) (further.map edit) (content.reclose edit)).bare
      = (ofLines line further content).reclose edit := by
  have last := endLine_ofLines_map number line further content (content.reclose edit)
  rw [bare, reclose, last]
  simp only [ofLines, number]

theorem samePlaces_reclose (edit : Line → Line) : SamePlaces (reclose edit) bare := by
  intro block other same
  obtain ⟨starts, ends, -⟩ := parts_of_bare same
  exact ⟨starts, ends⟩

end Block

-----------------------------------------------------------------------------------------
-- Requirements
-----------------------------------------------------------------------------------------

namespace Claim

theorem Requirement.opens?_map (reclosing : Reclosing edit lines) (scheme : Scheme)
    {line : Line} {rest : List Line} (behind : line :: rest <:+ lines)
    : opens? scheme (edit line) (rest.map edit)
      = (opens? scheme line rest).map (fun found => (found.1, found.2.reclose edit)) := by
  have ahead {other : Line} (member : other ∈ rest) : other ∈ lines :=
    behind.mem (List.mem_cons_of_mem line member)
  have look := Line.upTo?_map closesBlock (stops scheme) reclosing.number line
    (fun other member => ⟨reclosing.closesBlock_eq (ahead member),
      reclosing.stops_eq (ahead member) scheme⟩)
  rw [opens?, opens?, reclosing.heading_eq (behind.mem List.mem_cons_self), look]
  cases Heading.requirement? scheme line.text with
  | none => rfl
  | some heading =>
      cases found : line.upTo? closesBlock (stops scheme) rest with
      | none => rfl
      | some ends =>
          obtain ⟨inner, last⟩ := ends
          obtain ⟨further, split, -, -, open'⟩ := Line.upTo?_spec found
          have inside {other : Line} (member : other ∈ inner) : other ∈ lines :=
            ahead (split ▸ List.mem_append_left _ member)
          have fixed : inner.map edit = inner :=
            (List.map_congr_left (fun other member =>
              reclosing.fixes (inside member) (open' other member))).trans (List.map_id inner)
          simp [fixed, Content.reclose, ofBlock, Traceability.Requirement.reclose,
            reclosing.number]

theorem requirement_claim_map (reclosing : Reclosing edit lines) (context : ClaimContext)
    : (requirement.claim context (lines.map edit)).map Block.bare
      = (requirement.claim context lines).map (Block.reclose edit) := by
  refine Block.sweep_map (fun _ => True) ?_ ?_ (fun _ _ => trivial)
  · intro line rest behind none'
    rw [Requirement.opens?_map reclosing context.scheme behind, none']
    rfl
  · intro line rest count content behind found _
    refine ⟨content.reclose edit, ?_, Block.ofLines_map reclosing.number line _ content⟩
    rw [Requirement.opens?_map reclosing context.scheme behind, found]
    rfl

-----------------------------------------------------------------------------------------
-- Comments
-----------------------------------------------------------------------------------------

/-- A comment opens where it did, and says the same if its lines stay. -/
theorem Comment.opens?_map (reclosing : Reclosing edit lines) (scheme : Scheme)
    {line : Line} {rest : List Line} (behind : line :: rest <:+ lines)
    : (opens? scheme line rest = none → opens? scheme (edit line) (rest.map edit) = none)
      ∧ ∀ count content,
          opens? scheme line rest = some (count, content) →
          (∀ other ∈ line :: rest.take count, edit other = other) →
            opens? scheme (edit line) (rest.map edit) = some (count, content) := by
  have look := Line.upTo?_map closes (fun _ => false) reclosing.number line
    (fun other (member : other ∈ rest) =>
      ⟨reclosing.closes_eq (behind.mem (List.mem_cons_of_mem line member)), rfl⟩)
  rw [opens?, opens?, reclosing.afterOpen?_eq (behind.mem List.mem_cons_self), look]
  cases afterOpen? scheme line.text with
  | none => simp
  | some afterOpen =>
      simp only [Option.bind_eq_bind, Option.bind_some]
      by_cases here : Text.contains closeSign afterOpen = true
      · rw [if_pos here, if_pos here]
        refine ⟨fun none' => absurd none' (Option.some_ne_none _), ?_⟩
        intro count text same fixed
        rw [fixed line List.mem_cons_self]
        exact same
      · rw [if_neg here, if_neg here]
        cases found : line.upTo? closes (fun _ => false) rest with
        | none => simp
        | some ends =>
            obtain ⟨inner, last⟩ := ends
            obtain ⟨further, split, -, -, -⟩ := Line.upTo?_spec found
            have taken : rest.take (inner.length + 1) = inner ++ [last] := by
              rw [split, List.take_length_add_append]
              rfl
            refine ⟨by simp, ?_⟩
            intro count text same fixed
            obtain ⟨rfl, rfl⟩ := Prod.mk.inj (Option.some.inj same)
            rw [taken] at fixed
            have inside : inner.map edit = inner :=
              (List.map_congr_left (fun other member =>
                fixed other (by simp [member]))).trans (List.map_id inner)
            simp [inside, fixed line List.mem_cons_self, fixed last (by simp)]

/-- Comments stay as they are if the change leaves their lines alone. -/
theorem comment_claim_map (reclosing : Reclosing edit lines) (context : ClaimContext)
    (untouched : ∀ block ∈ comment.claim context lines, block.Untouched edit lines)
    : (comment.claim context (lines.map edit)).map Block.bare
      = (comment.claim context lines).map (Block.reclose edit) := by
  refine Block.sweep_map (Block.Untouched edit lines) ?_ ?_ untouched
  · intro line rest behind
    exact (Comment.opens?_map reclosing context.scheme behind).1
  · intro line rest count content behind found kept
    have inRun := Comment.contiguous context.scheme line rest count content found
    obtain ⟨text, decorative, rfl⟩ := Comment.content_of_opens? found
    refine ⟨_, (Comment.opens?_map reclosing context.scheme behind).2 count _ found ?_,
      Block.ofLines_map reclosing.number line _ (.comment text decorative)⟩
    intro other member
    refine kept other (behind.mem ?_)
      ((Block.ofLines_includes_iff line rest count _ inRun _).mpr (List.mem_map_of_mem member))
    rcases List.mem_cons.mp member with rfl | later
    · exact List.mem_cons_self
    · exact List.mem_cons_of_mem line (List.mem_of_mem_take later)

end Claim

-----------------------------------------------------------------------------------------
-- Partitions
-----------------------------------------------------------------------------------------

namespace Registry

/-- The lines of a comment stay if each changed line closes a requirement. Witness: comments run
first and lose none of their proposals, and blocks that are kept are disjoint. -/
theorem untouched_comment (ascending : Line.Ascending lines) {context : ClaimContext}
    (owned
      : ∀ line ∈ lines, edit line ≠ line →
          ∃ block ∈ standard.blocks context lines, ∃ requirement,
            block.content = .requirement requirement ∧ block.includes line.number = true)
    : ∀ block ∈ Claim.comment.claim context lines, block.Untouched edit lines := by
  intro comment proposed line member inside
  by_contra changed
  obtain ⟨block, kept, requirement, content, own⟩ := owned line member changed
  have accepted : comment ∈ ((Partition.initial lines).pass context Claim.comment).blocks := by
    have nonempty : (Partition.initial lines).free ≠ [] := List.ne_nil_of_mem member
    unfold Partition.pass
    rw [if_neg nonempty]
    have all := foldl_accept_sweep (Claim.Comment.contiguous context.scheme) [] [] lines ascending
    rw [List.nil_append, List.nil_append] at all
    exact all ▸ proposed
  have final : comment ∈ (standard.final context lines).blocks :=
    mem_foldl_pass_of_mem context
      [Claim.requirement, Claim.journey, Claim.codeReference, Claim.testReference,
        Claim.remainder] accepted
  have keptToo := (standard.blocks_perm context lines).mem_iff.mpr final
  have distinct : comment ≠ block := by
    intro same
    exact Claim.noRequirements_of_mem (by simp) context lines comment proposed requirement
      (same ▸ content)
  exact disjoint_of_mem_blocks ascending keptToo kept distinct line.number ⟨inside, own⟩

/-- Blocks stay where they are when markers that close requirements change, and hold what they
held but for what a requirement reads from its marker. -/
theorem blocks_map (ascending : Line.Ascending lines) (reclosing : Reclosing edit lines)
    {context : ClaimContext}
    (owned
      : ∀ line ∈ lines, edit line ≠ line →
          ∃ block ∈ standard.blocks context lines, ∃ requirement,
            block.content = .requirement requirement ∧ block.includes line.number = true)
    : (standard.blocks context (lines.map edit)).map Block.bare
      = (standard.blocks context lines).map (Block.reclose edit) := by
  let first := (Partition.initial lines).pass context Claim.comment
  let second := first.pass context Claim.requirement
  let later := [Claim.journey, Claim.codeReference, Claim.testReference, Claim.remainder]
  have others : ∀ claimant ∈ later, Claim.NoRequirements claimant := by
    intro claimant member
    exact Claim.noRequirements_of_mem (List.mem_cons_of_mem _ member)
  have validSecond : second.Valid lines :=
    ((Partition.valid_initial lines).pass ascending context _).pass ascending context _
  -- A changed line is in a requirement, which only the second claimant can have taken.
  have fixed : ∀ line ∈ second.free, edit line = line := by
    intro line free
    by_contra changed
    rw [validSecond.free] at free
    obtain ⟨member, apart⟩ := mem_unclaimed_iff.mp free
    obtain ⟨block, kept, requirement, content, inside⟩ := owned line member changed
    have final : block ∈ (later.foldl (Partition.pass context) second).blocks :=
      (standard.blocks_perm context lines).mem_iff.mp kept
    rcases mem_foldl_pass final with early | ⟨earlier, claimant, after, offered, rest, split,
      proposed, -⟩
    · exact apart block early inside
    · exact others claimant (split ▸ List.mem_append_right _ List.mem_cons_self) context _ block
        (proposed ▸ List.mem_append_right _ List.mem_cons_self) requirement content
  have places := Block.samePlaces_reclose edit
  have start := Partition.matches_initial edit (Block.reclose edit) Block.bare lines
  have afterComments := start.pass reclosing.number places context
    (Claim.comment_claim_map reclosing context (untouched_comment ascending owned))
  have afterRequirements := afterComments.pass reclosing.number places context
    (Claim.requirement_claim_map
      (reclosing.sublist
        (free_pass_sublist context (Partition.initial lines) Claim.comment).subset)
      context)
  refine map_blocks_of_matches (afterRequirements.foldl_pass reclosing.number places context ?_)
    (fun _ => rfl) (fun _ => rfl)
  -- Nothing that the later claimants see has changed, and they read no requirements.
  intro claimant member free sub
  rw [(List.map_congr_left (fun line own => fixed line (sub own))).trans (List.map_id free)]
  refine List.map_congr_left (fun block proposed => ?_)
  exact (Block.reclose_of_other edit (others claimant member context _ block proposed)).symm

end Registry

end Traceability
