import Traceability.Proofs.Repair.Replacement
import Traceability.Proofs.Text.Rows

/-! What a rewrite does to the lines of a text.
Each change finds its marker at the recorded line and revises that line only. The lines of the
rewritten text are therefore the lines of the text, revised one by one.
-/

namespace Traceability

open Text Rewrite

-----------------------------------------------------------------------------------------
-- Changes keep lines lines
-----------------------------------------------------------------------------------------

/-- All characters of a replacement come from the marker, from the new hash or from the key. -/
theorem Rewrite.mem_of_replaceHash? {content computed replaced : List Char}
    {stored : Option (List Char)} (read : replaceHash? content stored computed = some replaced)
    {c : Char} (member : c ∈ replaced)
    : c ∈ content ∨ c ∈ computed ∨ c ∈ " | **Hash**: ".toList := by
  rw [replaceHash?.eq_def] at read
  split at read
  · obtain rfl := Option.some.inj read
    rcases List.mem_append.mp member with front | inHash
    · rcases List.mem_append.mp front with inContent | inSuffix
      · refine Or.inl ?_
        rw [trimEnd, dropEndWhile, List.mem_reverse] at inContent
        exact List.mem_reverse.mp ((List.dropWhile_suffix _).mem inContent)
      · exact Or.inr (Or.inr inSuffix)
    · exact Or.inr (Or.inl inHash)
  · next hash =>
      obtain ⟨⟨before, after⟩, last, read⟩ := Option.bind_eq_some_iff.mp read
      obtain ⟨⟨skipped, rest⟩, first, read⟩ := Option.bind_eq_some_iff.mp read
      obtain rfl := Option.some.inj read
      have whole := cutLast?_eq last
      rw [cutFirst?_eq first] at whole
      rw [whole]
      simp only [List.mem_append] at member ⊢
      tauto

theorem Rewrite.inline_of_replaceHash? {content computed replaced : List Char}
    {stored : Option (List Char)} (read : replaceHash? content stored computed = some replaced)
    (inline : Inline content) (inlineHash : Inline computed)
    : Inline replaced := by
  have signs : ∀ c ∈ " | **Hash**: ".toList, isLineEnd c = false :=
    forall_mem_of_all (by decide)
  intro c member
  rcases mem_of_replaceHash? read member with inContent | inHash | inSuffix
  · exact inline c inContent
  · exact inlineHash c inHash
  · exact signs c inSuffix

theorem Rewrite.ne_nil_of_replaceHash? {content computed replaced : List Char}
    {stored : Option (List Char)} (read : replaceHash? content stored computed = some replaced)
    (nonempty : computed ≠ [])
    : replaced ≠ [] := by
  rw [replaceHash?.eq_def] at read
  split at read
  · obtain rfl := Option.some.inj read
    simp
  · obtain ⟨⟨before, after⟩, last, read⟩ := Option.bind_eq_some_iff.mp read
    obtain ⟨⟨skipped, rest⟩, first, read⟩ := Option.bind_eq_some_iff.mp read
    obtain rfl := Option.some.inj read
    simp [nonempty]

/-- A change finds its marker, replaces the hash on it and keeps the ending of the piece. -/
theorem Rewrite.parts_of_change? {ps changed : List (List Char)} {update : HashUpdate}
    (made : change? ps update = some changed)
    : ∃ position piece replaced,
        locate? ps update.line update.anchor.toList = some position
        ∧ ps[position]? = some piece
        ∧ replaceHash? (contentOf piece) (update.stored.map String.toList)
            update.computed.toList = some replaced
        ∧ changed = ps.set position (replaced ++ endingOf piece) := by
  obtain ⟨position, located, made⟩ := Option.bind_eq_some_iff.mp made
  obtain ⟨piece, here, made⟩ := Option.bind_eq_some_iff.mp made
  obtain ⟨replaced, read, made⟩ := Option.bind_eq_some_iff.mp made
  exact ⟨position, piece, replaced, located, here, read, (Option.some.inj made).symm⟩

namespace HashUpdate

/-- The line with this number and content after a change. -/
def revise (update : HashUpdate) (number : Nat) (content : List Char) : List Char :=
  if number = update.line then
    (replaceHash? content (update.stored.map String.toList) update.computed.toList).getD content
  else content

/-- The line after several changes. -/
def reviseAll (updates : List HashUpdate) (number : Nat) (content : List Char) : List Char :=
  updates.foldl (fun content update => update.revise number content) content

theorem keepsLines_revise {update : HashUpdate}
    (producible : BodyHash.Producible update.computed)
    : KeepsLines update.revise := by
  have digits : ∀ c ∈ hexDigits, isLineEnd c = false := forall_mem_of_all (by decide)
  intro number content inline
  rw [revise]
  split
  · cases read : replaceHash? content (update.stored.map String.toList)
        update.computed.toList with
    | none => exact ⟨inline, fun nonempty => nonempty⟩
    | some replaced =>
        refine ⟨inline_of_replaceHash? read inline ?_, fun _ => ne_nil_of_replaceHash? read ?_⟩
        · exact fun c member => digits c (producible.digits c member)
        · exact (ClosingMarker.Producible.solid producible).1
  · exact ⟨inline, fun nonempty => nonempty⟩

theorem keepsLines_reviseAll {updates : List HashUpdate}
    (producible : ∀ update ∈ updates, BodyHash.Producible update.computed)
    : KeepsLines (reviseAll updates) := by
  induction updates with
  | nil => exact fun _ _ inline => ⟨inline, fun nonempty => nonempty⟩
  | cons update rest ih =>
      have first := keepsLines_revise (producible update List.mem_cons_self)
      have later := ih (fun other member => producible other (List.mem_cons_of_mem _ member))
      intro number content inline
      obtain ⟨kept, still⟩ := first number content inline
      obtain ⟨keptAll, stillAll⟩ := later number _ kept
      exact ⟨keptAll, fun nonempty => stillAll (still nonempty)⟩

/-- Lines that no change records stay as they are. -/
theorem reviseAll_of_not_mem {updates : List HashUpdate} {number : Nat}
    (other : number ∉ updates.map HashUpdate.line) (content : List Char)
    : reviseAll updates number content = content := by
  induction updates generalizing content with
  | nil => rfl
  | cons update rest ih =>
      rw [List.map_cons, List.mem_cons, not_or] at other
      rw [reviseAll, List.foldl_cons, revise, if_neg other.1]
      exact ih other.2 content

/-- Of changes of different lines each revises its own. -/
theorem reviseAll_of_mem {updates : List HashUpdate}
    (distinct : (updates.map HashUpdate.line).Nodup) {update : HashUpdate}
    (member : update ∈ updates) (content : List Char)
    : reviseAll updates update.line content = update.revise update.line content := by
  induction updates generalizing content with
  | nil => exact absurd member List.not_mem_nil
  | cons first rest ih =>
      rw [List.map_cons, List.nodup_cons] at distinct
      rw [reviseAll, List.foldl_cons]
      rcases List.mem_cons.mp member with rfl | later
      · exact reviseAll_of_not_mem distinct.1 _
      · have other : update.line ≠ first.line :=
          fun same => distinct.1 (same ▸ List.mem_map_of_mem later)
        rw [show first.revise update.line content = content by rw [revise, if_neg other]]
        exact ih distinct.2 later content

end HashUpdate

-----------------------------------------------------------------------------------------
-- Applying changes
-----------------------------------------------------------------------------------------

/-- Two changes of rows, one after the other, are one change. -/
theorem Text.Rows.reviseRows_reviseRows {first second : Nat → List Char → List Char}
    (keeps : KeepsLines first) {ps : List (List Char)} (rows : Rows ps) (number : Nat)
    : reviseRows second number (reviseRows first number ps)
      = reviseRows (fun n content => second n (first n content)) number ps := by
  induction rows generalizing number with
  | nil => rfl
  | @last content inline nonempty =>
      have kept := (keeps number content inline).1
      simp only [reviseRows, contentOf_of_inline inline, endingOf_of_inline inline,
        List.append_nil, contentOf_of_inline kept, endingOf_of_inline kept]
  | @line content ending rest inline ends further ih =>
      have isEnd := isLineEnd_of_ending ends
      have kept := (keeps number content inline).1
      simp only [reviseRows, contentOf_append inline isEnd, endingOf_append inline isEnd,
        contentOf_append kept isEnd, endingOf_append kept isEnd, ih]

theorem Text.reviseRows_id (number : Nat) (ps : List (List Char))
    : reviseRows (fun _ content => content) number ps = ps := by
  induction ps generalizing number with
  | nil => rfl
  | cons piece rest ih => rw [reviseRows, contentOf_append_endingOf, ih]

namespace HashUpdate

theorem contentOf_of_mem_matchesFrom {anchor : List Char} {pieces : List (List Char)}
    {first position : Nat} (member : position ∈ matchesFrom anchor first pieces)
    : first ≤ position ∧ (pieces[position - first]?).map contentOf = some anchor := by
  induction pieces generalizing first with
  | nil => exact absurd member List.not_mem_nil
  | cons piece rest ih =>
      have further (later : position ∈ matchesFrom anchor (first + 1) rest)
          : first ≤ position
            ∧ ((piece :: rest)[position - first]?).map contentOf = some anchor := by
        obtain ⟨above, here⟩ := ih later
        have next : position - first = position - (first + 1) + 1 := by omega
        rw [next, List.getElem?_cons_succ]
        exact ⟨by omega, here⟩
      rw [matchesFrom] at member
      split at member
      · next same =>
          rcases List.mem_cons.mp member with rfl | later
          · simp [same]
          · exact further later
      · exact further member

/-- A change applies to a piece whose content is its marker. -/
theorem contentOf_of_locate? {pieces : List (List Char)} {line position : Nat}
    {anchor : List Char} (located : locate? pieces line anchor = some position)
    : (pieces[position]?).map contentOf = some anchor := by
  rw [locate?] at located
  split at located
  · exact absurd located (by simp)
  · split at located
    · next recorded =>
        rw [← Option.some.inj located]
        exact recorded
    · split at located
      · next only =>
          obtain ⟨-, here⟩ := contentOf_of_mem_matchesFrom (only ▸ List.mem_cons_self)
          rw [← Option.some.inj located]
          exact here
      · exact absurd located (by simp)

/-- A change finds its marker at the recorded line and can replace the hash on it. -/
structure Located (pieces : List (List Char)) (update : HashUpdate) : Prop where
  positive : 1 ≤ update.line
  anchored : (pieces[update.line - 1]?).map contentOf = some update.anchor.toList
  replaceable
    : ∃ replaced,
        replaceHash? update.anchor.toList (update.stored.map String.toList)
            update.computed.toList
          = some replaced

/-- A change of its own line is all that a located change does. -/
theorem Located.change?_eq {pieces : List (List Char)} {update : HashUpdate}
    (located : Located pieces update)
    : Rewrite.change? pieces update = some (reviseRows update.revise 1 pieces) := by
  obtain ⟨piece, here, anchor⟩ := Option.map_eq_some_iff.mp located.anchored
  obtain ⟨replaced, read⟩ := located.replaceable
  have nonzero : update.line ≠ 0 := Nat.ne_of_gt located.positive
  have position : locate? pieces update.line update.anchor.toList = some (update.line - 1) := by
    rw [locate?, if_neg nonzero, if_pos located.anchored]
  have changed
      : Rewrite.change? pieces update
        = some (pieces.set (update.line - 1) (replaced ++ endingOf piece)) := by
    rw [Rewrite.change?, position]
    simp only [Option.bind_eq_bind, Option.bind_some, here]
    rw [anchor, read, Option.bind_some]
    rfl
  rw [changed, Option.some.injEq]
  apply List.ext_getElem?
  intro i
  rw [getElem?_reviseRows, List.getElem?_set]
  by_cases own : update.line - 1 = i
  · have number : 1 + i = update.line := by
      have positive := located.positive
      omega
    obtain ⟨inside, -⟩ := List.getElem?_eq_some_iff.mp here
    rw [if_pos own, if_pos inside, ← own, here, Option.map_some, own, number, revise, if_pos rfl,
      anchor, read, Option.getD_some]
  · have number : 1 + i ≠ update.line := by omega
    rw [if_neg own]
    cases pieces[i]? with
    | none => rfl
    | some other =>
        rw [Option.map_some, revise, if_neg number, contentOf_append_endingOf]

/-- A change of another line leaves a located change located. -/
theorem Located.revise {pieces : List (List Char)} {update other : HashUpdate}
    (located : Located pieces update) (distinct : update.line ≠ other.line)
    : Located (reviseRows other.revise 1 pieces) update where
  positive := located.positive
  anchored := by
    have positive := located.positive
    have number : 1 + (update.line - 1) = update.line := by omega
    obtain ⟨piece, here, anchor⟩ := Option.map_eq_some_iff.mp located.anchored
    rw [getElem?_reviseRows, here, number, Option.map_some, HashUpdate.revise, if_neg distinct,
      contentOf_append_endingOf, Option.map_some, anchor]
  replaceable := located.replaceable

/-- Changes of different lines that all find their markers are applied together. Witness:
induction along the changes; each leaves the lines of those behind it alone. -/
theorem applyAll_eq (path : String) {pieces : List (List Char)} (rows : Rows pieces)
    {updates : List HashUpdate} (distinct : (updates.map HashUpdate.line).Nodup)
    (located : ∀ update ∈ updates, Located pieces update)
    (producible : ∀ update ∈ updates, BodyHash.Producible update.computed)
    : applyAll path pieces updates = .ok (reviseRows (reviseAll updates) 1 pieces) := by
  induction updates generalizing pieces with
  | nil => exact congrArg Except.ok (reviseRows_id 1 pieces).symm
  | cons update rest ih =>
      rw [List.map_cons, List.nodup_cons] at distinct
      have keeps := keepsLines_revise (producible update List.mem_cons_self)
      have later := ih (rows.revise keeps 1) distinct.2
        (fun other member =>
          (located other (List.mem_cons_of_mem _ member)).revise
            (fun same => distinct.1 (same ▸ List.mem_map_of_mem member)))
        (fun other member => producible other (List.mem_cons_of_mem _ member))
      rw [applyAll, (located update List.mem_cons_self).change?_eq]
      exact later.trans (congrArg Except.ok (rows.reviseRows_reviseRows keeps 1))

end HashUpdate

-----------------------------------------------------------------------------------------
-- The lines of the rewritten text
-----------------------------------------------------------------------------------------

theorem Line.revise_of_not_mem {updates : List HashUpdate} {line : Line}
    (other : line.number ∉ updates.map HashUpdate.line)
    : line.revise (HashUpdate.reviseAll updates) = line := by
  rw [revise, HashUpdate.reviseAll_of_not_mem other, String.ofList_toList]

/-- A rewrite whose changes find their markers succeeds, and revises the lines of the text. -/
theorem HashUpdate.rewrite_eq (path : String) {text : String}
    (feeds : FeedsAfterReturns text.toList) {updates : List HashUpdate}
    (distinct : (updates.map HashUpdate.line).Nodup)
    (located : ∀ update ∈ updates, Located (pieces text.toList) update)
    (producible : ∀ update ∈ updates, BodyHash.Producible update.computed)
    : ∃ rewritten,
        rewrite path text updates = .ok rewritten
        ∧ Line.ofText rewritten = (Line.ofText text).map (Line.revise · (reviseAll updates)) := by
  have rows := rows_pieces feeds
  have keeps := keepsLines_reviseAll producible
  exact ⟨_, by rw [rewrite, applyAll_eq path rows distinct located producible],
    Line.ofText_reviseRows keeps feeds⟩

end Traceability
