import Mathlib.Data.List.Forall2
import Traceability.Proofs.Repair.LineEnds

/-! What a rewrite leaves alone.
A change gives one piece a new content in front of its ending, and no other piece is touched. So
changes of different recorded lines do not meet, and their order does not matter.
-/

namespace Traceability

open Text

namespace Text

open Rewrite

-----------------------------------------------------------------------------------------
-- Pieces with a new content
-----------------------------------------------------------------------------------------

theorem endingOf_append_ends (s : List Char) {ending : List Char}
    (ends : ∀ c ∈ ending, isLineEnd c = true)
    : endingOf (s ++ ending) = endingOf s ++ ending := by
  have whole : contentOf s ++ endingOf (s ++ ending) = contentOf s ++ (endingOf s ++ ending) := by
    rw [← contentOf_append_ends s ends, contentOf_append_endingOf, contentOf_append_ends s ends,
      ← List.append_assoc, contentOf_append_endingOf]
  exact List.append_cancel_left whole

/-- A piece has a new content in front of its ending, without a line feed unless the old content
has one. -/
def Refilled (piece changed : List Char) : Prop :=
  ∃ content, ('\n' ∈ content → '\n' ∈ contentOf piece) ∧ changed = content ++ endingOf piece

theorem Refilled.refl (piece : List Char) : Refilled piece piece :=
  ⟨contentOf piece, id, (contentOf_append_endingOf piece).symm⟩

theorem Refilled.feed_mem {piece changed : List Char} (refilled : Refilled piece changed)
    (member : '\n' ∈ changed)
    : '\n' ∈ piece := by
  obtain ⟨content, feeds, rfl⟩ := refilled
  rcases List.mem_append.mp member with inContent | inEnding
  · exact (contentOf_isPrefix piece).mem (feeds inContent)
  · exact List.mem_of_mem_drop inEnding

/-- What the second change takes for line ends may be the end of the first content. -/
theorem Refilled.trans {first second third : List Char} (before : Refilled first second)
    (later : Refilled second third)
    : Refilled first third := by
  obtain ⟨content, feeds, rfl⟩ := before
  obtain ⟨more, feeds', rfl⟩ := later
  rw [contentOf_append_ends content isLineEnd_of_mem_endingOf] at feeds'
  rw [endingOf_append_ends content isLineEnd_of_mem_endingOf, ← List.append_assoc]
  have again : Refilled content (more ++ endingOf content) := ⟨more, feeds', rfl⟩
  exact ⟨more ++ endingOf content, fun member => feeds (again.feed_mem member), rfl⟩

/-- A piece keeps its ending, and does not vanish. -/
def KeepsEnding (piece changed : List Char) : Prop :=
  endingOf changed = endingOf piece ∧ (piece ≠ [] → changed ≠ [])

theorem KeepsEnding.trans {first second third : List Char} (before : KeepsEnding first second)
    (later : KeepsEnding second third)
    : KeepsEnding first third :=
  ⟨later.1.trans before.1, fun nonempty => later.2 (before.2 nonempty)⟩

-----------------------------------------------------------------------------------------
-- Cut texts
-----------------------------------------------------------------------------------------

/-- Pieces that end with a line feed each, of which they have no other. The last one may lack it,
and may then be empty. -/
inductive Cut : List (List Char) → Prop
  | nil : Cut []
  | last {content} (plain : '\n' ∉ content) : Cut [content]
  | line {content rest} (plain : '\n' ∉ content) (further : Cut rest)
    : Cut ((content ++ ['\n']) :: rest)

theorem cut_pieces (s : List Char) : Cut (pieces s) := by
  induction s with
  | nil => exact .nil
  | cons c s ih =>
      have step : pieces (c :: s) = pushPiece c (pieces s) := rfl
      rw [step, pushPiece.eq_def]
      split
      · next feed =>
          subst feed
          exact .line List.not_mem_nil ih
      · next other =>
          have extended {content : List Char} (plain : '\n' ∉ content) : '\n' ∉ c :: content := by
            simpa [Ne.symm other] using plain
          generalize pieces s = ps at ih
          cases ih with
          | nil => exact .last (extended List.not_mem_nil)
          | last plain => exact .last (extended plain)
          | line plain further => exact .line (extended plain) further

/-- Cut texts that are joined are cut there again, except that an empty piece vanishes. -/
theorem Cut.pieces_flatten {ps : List (List Char)} (cut : Cut ps)
    : pieces ps.flatten = ps.filter (fun piece => piece ≠ []) := by
  induction cut with
  | nil => rfl
  | @last content plain =>
      by_cases empty : content = []
      · subst empty
        rfl
      · rw [List.flatten_singleton, pieces_of_plain plain empty]
        simp [empty]
  | @line content rest plain further ih =>
      rw [List.flatten_cons, List.append_assoc, List.singleton_append, pieces_append_feed plain, ih,
        List.filter_cons_of_pos (by simp)]

theorem ne_nil_of_mem_pieces {s : List Char} : ∀ piece ∈ pieces s, piece ≠ [] := by
  have same := (cut_pieces s).pieces_flatten
  rw [flatten_pieces] at same
  exact fun piece member => of_decide_eq_true (List.filter_eq_self.mp same.symm piece member)

/-- New contents leave a text cut as it was. -/
theorem Cut.refilled {ps changed : List (List Char)} (cut : Cut ps)
    (refilled : List.Forall₂ Refilled ps changed)
    : Cut changed := by
  have feedIsEnd : ∀ c ∈ ['\n'], isLineEnd c = true := isLineEnd_of_ending (Or.inl rfl)
  induction cut generalizing changed with
  | nil =>
      cases refilled
      exact .nil
  | @last content plain =>
      obtain ⟨new, more, filled, none, rfl⟩ := List.forall₂_cons_left_iff.mp refilled
      cases none
      exact .last fun member => plain (filled.feed_mem member)
  | @line content rest plain further ih =>
      obtain ⟨new, more, ⟨filled, feeds, rfl⟩, later, rfl⟩ :=
        List.forall₂_cons_left_iff.mp refilled
      rw [contentOf_append_ends content feedIsEnd] at feeds
      rw [endingOf_append_ends content feedIsEnd, ← List.append_assoc]
      have own : Refilled content (filled ++ endingOf content) := ⟨filled, feeds, rfl⟩
      exact .line (fun member => plain (own.feed_mem member)) (ih later)

/-- Whether a piece ends with a line feed. -/
def isTerminated (piece : List Char) : Bool :=
  piece.getLast? = some '\n'

theorem isTerminated_append {s : List Char} (plain : '\n' ∉ s) (ending : List Char)
    : isTerminated (s ++ ending) = isTerminated ending := by
  rw [isTerminated, isTerminated, List.getLast?_append]
  cases ending.getLast? with
  | some c => rfl
  | none =>
      have other : s.getLast? ≠ some '\n' := fun last => plain (List.mem_of_getLast? last)
      simp [other]

/-- New contents leave as many pieces with a line feed as there were. -/
theorem countP_isTerminated_refilled {ps changed : List (List Char)}
    (plain : ∀ piece ∈ ps, '\n' ∉ contentOf piece) (refilled : List.Forall₂ Refilled ps changed)
    : changed.countP isTerminated = ps.countP isTerminated := by
  induction refilled with
  | nil => rfl
  | @cons piece new rest more filled _ ih =>
      obtain ⟨content, feeds, rfl⟩ := filled
      have own := plain piece List.mem_cons_self
      have same : isTerminated (content ++ endingOf piece) = isTerminated piece := by
        rw [isTerminated_append (fun member => own (feeds member)),
          ← isTerminated_append own (endingOf piece), contentOf_append_endingOf]
      rw [List.countP_cons, List.countP_cons, same,
        ih fun other member => plain other (List.mem_cons_of_mem _ member)]

end Text

namespace Rewrite

variable {ps changed : List (List Char)} {updates : List HashUpdate}

-----------------------------------------------------------------------------------------
-- Runs of changes
-----------------------------------------------------------------------------------------

/-- The positions at which changes find their markers, one after the other. -/
def anchoredAt (ps : List (List Char)) : List HashUpdate → List Nat
  | [] => []
  | update :: rest =>
      (locate? ps update.line update.anchor.toList).toList
        ++ anchoredAt ((change? ps update).getD ps) rest

/-- Pieces at which no change finds its marker stay as they are. -/
theorem getElem?_applyAll {path : String} (done : applyAll path ps updates = .ok changed)
    {position : Nat} (elsewhere : position ∉ anchoredAt ps updates)
    : changed[position]? = ps[position]? := by
  induction updates generalizing ps with
  | nil =>
      cases done
      rfl
  | cons update rest ih =>
      rw [applyAll] at done
      cases made : change? ps update with
      | none =>
          rw [made] at done
          cases done
      | some next =>
          rw [made] at done
          rw [anchoredAt, made, Option.getD_some, List.mem_append, not_or] at elsewhere
          obtain ⟨place, piece, replaced, located, -, -, rfl⟩ := parts_of_change? made
          rw [located] at elsewhere
          have other : place ≠ position := fun same => elsewhere.1 (by simp [same])
          rw [ih done elsewhere.2, List.getElem?_set_ne other]

theorem forall₂_set {α : Type} {R : α → α → Prop} (refl : ∀ item, R item item) {items : List α}
    {position : Nat} {item new : α} (here : items[position]? = some item) (related : R item new)
    : List.Forall₂ R items (items.set position new) := by
  induction items generalizing position with
  | nil => exact .nil
  | cons first rest ih =>
      cases position with
      | zero =>
          obtain rfl := Option.some.inj here
          exact .cons related (List.forall₂_same.mpr fun other _ => refl other)
      | succ position => exact .cons (refl first) (ih here)

theorem forall₂_trans {α : Type} {R : α → α → Prop} (trans : ∀ {a b c}, R a b → R b c → R a c)
    {first second third : List α} (before : List.Forall₂ R first second)
    (later : List.Forall₂ R second third)
    : List.Forall₂ R first third := by
  induction before generalizing third with
  | nil => exact later
  | cons head _ ih =>
      cases later with
      | cons further rest => exact .cons (trans head further) (ih rest)

/-- What every replacement does to its piece, a run does to all pieces. -/
theorem forall₂_of_applyAll {path : String} {R : List Char → List Char → Prop}
    (refl : ∀ piece, R piece piece) (trans : ∀ {a b c}, R a b → R b c → R a c)
    (step
      : ∀ update ∈ updates, ∀ piece replaced,
          replaceHash? (contentOf piece) (update.stored.map String.toList) update.computed.toList
            = some replaced
          → R piece (replaced ++ endingOf piece))
    (done : applyAll path ps updates = .ok changed)
    : List.Forall₂ R ps changed := by
  induction updates generalizing ps with
  | nil =>
      cases done
      exact List.forall₂_same.mpr fun piece _ => refl piece
  | cons update rest ih =>
      rw [applyAll] at done
      cases made : change? ps update with
      | none =>
          rw [made] at done
          cases done
      | some next =>
          rw [made] at done
          obtain ⟨position, piece, replaced, -, here, read, rfl⟩ := parts_of_change? made
          have first := forall₂_set refl here (step update List.mem_cons_self piece replaced read)
          exact forall₂_trans (R := R) trans first
            (ih (fun other member => step other (List.mem_cons_of_mem _ member)) done)

-----------------------------------------------------------------------------------------
-- Replacements
-----------------------------------------------------------------------------------------

variable {piece computed replaced : List Char} {stored : Option (List Char)}

theorem refilled_of_replaceHash?
    (read : replaceHash? (contentOf piece) stored computed = some replaced)
    (plain : '\n' ∉ computed)
    : Refilled piece (replaced ++ endingOf piece) := by
  refine ⟨replaced, fun member => ?_, rfl⟩
  rcases mem_of_replaceHash? read member with inContent | inHash | inSuffix
  · exact inContent
  · exact absurd inHash plain
  · exact absurd inSuffix (by decide)

/-- A new content has no line end behind it. Witness: it ends with the new hash or as the old
content does. -/
theorem contentOf_of_replaceHash?
    (read : replaceHash? (contentOf piece) stored computed = some replaced)
    (inline : Inline computed) (nonempty : computed ≠ [])
    : contentOf replaced = replaced := by
  have hashEnds : ∀ c ∈ computed.getLast?, isLineEnd c = false :=
    fun c last => inline c (List.mem_of_getLast? last)
  rw [contentOf_eq_self_iff]
  cases stored with
  | none =>
      obtain rfl := Option.some.inj read
      rw [List.getLast?_append_of_ne_nil _ nonempty]
      exact hashEnds
  | some stored =>
      obtain ⟨before, after, skipped, rest, last, first, rfl⟩ :=
        ClosingMarker.replaceHash?_eq_some_iff.mp read
      by_cases final : rest = []
      · rw [final, List.append_nil, List.getLast?_append_of_ne_nil _ nonempty]
        exact hashEnds
      · have old : contentOf piece = (before ++ (skipped ++ stored)) ++ rest := by
          rw [cutLast?_eq last, cutFirst?_eq first]
          simp
        have ends := contentOf_eq_self_iff.mp (contentOf_contentOf piece)
        rw [old, List.getLast?_append_of_ne_nil _ final] at ends
        rw [List.getLast?_append_of_ne_nil _ final]
        exact ends

theorem keepsEnding_of_replaceHash?
    (read : replaceHash? (contentOf piece) stored computed = some replaced)
    (inline : Inline computed) (nonempty : computed ≠ [])
    : KeepsEnding piece (replaced ++ endingOf piece) := by
  have content := contentOf_of_replaceHash? read inline nonempty
  have noEnding : endingOf replaced = [] := by
    rw [endingOf, content, List.drop_length]
  refine ⟨?_, fun _ => List.append_ne_nil_of_left_ne_nil (ne_nil_of_replaceHash? read nonempty) _⟩
  rw [endingOf_append_ends replaced isLineEnd_of_mem_endingOf, noEnding, List.nil_append]

end Rewrite

-----------------------------------------------------------------------------------------
-- Changes of recorded lines
-----------------------------------------------------------------------------------------

namespace HashUpdate

open Rewrite

/-- The recorded line of a change is its anchor, with or without the carriage returns at the end of
the line. -/
def IsRecorded (ps : List (List Char)) (update : HashUpdate) : Prop :=
  1 ≤ update.line
  ∧ ((ps[update.line - 1]?).map dropTerminator = some update.anchor.toList
    ∨ (ps[update.line - 1]?).map contentOf = some update.anchor.toList)

/-- The new content for the anchor of a change, if that can be the content of a piece. -/
def replacement? (update : HashUpdate) : Option (List Char) :=
  if contentOf update.anchor.toList = update.anchor.toList then
    replaceHash? update.anchor.toList (update.stored.map String.toList) update.computed.toList
  else none

/-- Changes the recorded line, whatever its content is. -/
def reviseLine? (update : HashUpdate) (ps : List (List Char)) : Option (List (List Char)) :=
  update.replacement?.map (fun replaced =>
    ps.modify (update.line - 1) (fun piece => replaced ++ endingOf piece))

variable {ps : List (List Char)} {update other : HashUpdate}

/-- A change of a recorded line looks for its marker no further. Witness: an anchor that no content
can be is found nowhere. -/
theorem IsRecorded.change?_eq (recorded : update.IsRecorded ps)
    : change? ps update = update.reviseLine? ps := by
  obtain ⟨positive, line⟩ := recorded
  by_cases whole : contentOf update.anchor.toList = update.anchor.toList
  · have content : (ps[update.line - 1]?).map contentOf = some update.anchor.toList := by
      rcases line with line | content
      · obtain ⟨piece, here, same⟩ := Option.map_eq_some_iff.mp line
        rw [here, Option.map_some, ← contentOf_dropTerminator, same, whole]
      · exact content
    obtain ⟨piece, here, same⟩ := Option.map_eq_some_iff.mp content
    have located : locate? ps update.line update.anchor.toList = some (update.line - 1) := by
      rw [locate?, if_neg (Nat.ne_of_gt positive), if_pos content]
    rw [reviseLine?, replacement?, if_pos whole, Rewrite.change?, located]
    simp only [Option.bind_eq_bind, Option.bind_some, here, same, List.modify_eq_set_getElem?]
    cases replaceHash? update.anchor.toList (update.stored.map String.toList)
        update.computed.toList with
    | none => rfl
    | some replaced => rfl
  · rw [reviseLine?, replacement?, if_neg whole, Option.map_none,
      Option.eq_none_iff_forall_ne_some]
    intro changed made
    obtain ⟨position, piece, replaced, located, -, -, -⟩ := parts_of_change? made
    obtain ⟨found, -, same⟩ := Option.map_eq_some_iff.mp (contentOf_of_locate? located)
    rw [← same, contentOf_contentOf] at whole
    exact whole rfl

/-- A change of another line leaves a recorded line as it is. -/
theorem IsRecorded.reviseLine? {changed : List (List Char)} (recorded : other.IsRecorded ps)
    (positive : 1 ≤ update.line) (distinct : update.line ≠ other.line)
    (made : update.reviseLine? ps = some changed)
    : other.IsRecorded changed := by
  obtain ⟨replaced, -, rfl⟩ := Option.map_eq_some_iff.mp made
  have apart : update.line - 1 ≠ other.line - 1 := by
    have positive' := recorded.1
    omega
  have same (f : List Char → List Char)
      : (ps.modify (update.line - 1) f)[other.line - 1]? = ps[other.line - 1]? := by
    rw [List.getElem?_modify_ne _ _ apart]
  rw [IsRecorded, same]
  exact recorded

/-- A run of changes of different recorded lines changes these lines only. -/
theorem toOption_applyAll (path : String) {updates : List HashUpdate}
    (distinct : (updates.map HashUpdate.line).Nodup)
    (recorded : ∀ update ∈ updates, update.IsRecorded ps)
    : (applyAll path ps updates).toOption
      = updates.foldl (fun pieces update => pieces.bind update.reviseLine?) (some ps) := by
  induction updates generalizing ps with
  | nil => rfl
  | cons update rest ih =>
      have own := recorded update List.mem_cons_self
      rw [List.map_cons, List.nodup_cons] at distinct
      rw [applyAll, own.change?_eq, List.foldl_cons, Option.bind_some]
      cases made : update.reviseLine? ps with
      | none =>
          have stays (rest : List HashUpdate)
              : rest.foldl (fun pieces update => pieces.bind update.reviseLine?) none = none := by
            induction rest with
            | nil => rfl
            | cons _ _ ih => exact ih
          exact (stays rest).symm
      | some changed =>
          refine ih distinct.2 fun other member => ?_
          have apart : update.line ≠ other.line :=
            fun same => distinct.1 (same ▸ List.mem_map_of_mem member)
          exact (recorded other (List.mem_cons_of_mem _ member)).reviseLine? own.1 apart made

/-- Changes of different lines commute. -/
theorem reviseLine?_comm (distinct : update.line - 1 ≠ other.line - 1) (ps : List (List Char))
    : (update.reviseLine? ps).bind other.reviseLine?
      = (other.reviseLine? ps).bind update.reviseLine? := by
  unfold reviseLine?
  cases update.replacement? with
  | none => cases other.replacement? <;> rfl
  | some first =>
      cases other.replacement? with
      | none => rfl
      | some second => exact congrArg some (List.modify_modify_ne _ _ _ distinct)

/-- Changes of different recorded lines fail in any order or give the same pieces in any order. -/
theorem toOption_applyAll_eq_of_perm (path : String) {updates others : List HashUpdate}
    (perm : updates.Perm others) (distinct : (updates.map HashUpdate.line).Nodup)
    (recorded : ∀ update ∈ updates, update.IsRecorded ps)
    : (applyAll path ps updates).toOption = (applyAll path ps others).toOption := by
  rw [toOption_applyAll path distinct recorded,
    toOption_applyAll path ((perm.map _).nodup_iff.mp distinct)
      (fun update member => recorded update (perm.mem_iff.mpr member))]
  refine perm.foldl_eq' (fun update member other further pieces => ?_) (some ps)
  by_cases same : update.line - 1 = other.line - 1
  · have line : update.line = other.line := by
      have positive := (recorded update member).1
      have positive' := (recorded other further).1
      omega
    rw [List.inj_on_of_nodup_map distinct member further line]
  · cases pieces with
    | none => rfl
    | some pieces => exact reviseLine?_comm same pieces

end HashUpdate

-----------------------------------------------------------------------------------------
-- Rewritten texts
-----------------------------------------------------------------------------------------

namespace Rewrite

/-- A text that went through changes: each piece has its ending behind a content without line
feeds, and pieces at which no change found its marker are the same. -/
structure Local (text result : List Char) (updates : List HashUpdate) (changed : List (List Char))
    : Prop where
  joined : result = changed.flatten
  refilled
    : List.Forall₂ (fun piece new => ∃ content, '\n' ∉ content ∧ new = content ++ endingOf piece)
        (pieces text) changed
  elsewhere
    : ∀ position, position ∉ anchoredAt (pieces text) updates →
        changed[position]? = (pieces text)[position]?
  pieces_eq : pieces result = changed.filter (fun piece => piece ≠ [])
  terminated : (pieces result).countP isTerminated = (pieces text).countP isTerminated
  /-- Only an empty hash or one with a carriage return can leave a piece empty or a return in front
  of its ending. -/
  exact
    : (∀ update ∈ updates, update.computed ≠ "" ∧ '\r' ∉ update.computed.toList) →
        pieces result = changed ∧ changed.map endingOf = (pieces text).map endingOf

theorem local_of_applyAll {path text : String} {updates : List HashUpdate}
    {changed : List (List Char)}
    (plainHashes : ∀ update ∈ updates, '\n' ∉ update.computed.toList)
    (done : applyAll path (pieces text.toList) updates = .ok changed)
    : Local text.toList changed.flatten updates changed := by
  have plain : ∀ piece ∈ pieces text.toList, '\n' ∉ contentOf piece :=
    feed_not_mem_contentOf_of_mem_pieces
  have refilled : List.Forall₂ Refilled (pieces text.toList) changed := by
    refine forall₂_of_applyAll .refl .trans (fun update member piece replaced read => ?_) done
    exact refilled_of_replaceHash? read (plainHashes update member)
  have cut := ((cut_pieces text.toList).refilled refilled).pieces_flatten
  refine ⟨rfl, ?_, fun position => getElem?_applyAll done, cut, ?_, fun noReturns => ?_⟩
  · refine ((List.forall₂_and_left _ _).mpr ⟨plain, refilled⟩).imp fun piece new given => ?_
    obtain ⟨own, content, feeds, rfl⟩ := given
    exact ⟨content, fun member => own (feeds member), rfl⟩
  · rw [cut, List.countP_filter, ← countP_isTerminated_refilled plain refilled]
    refine List.countP_congr fun piece _ => ?_
    cases piece with
    | nil => simp [isTerminated]
    | cons c rest => simp
  · have kept : List.Forall₂ KeepsEnding (pieces text.toList) changed := by
      refine forall₂_of_applyAll (fun piece => ⟨rfl, id⟩) .trans
        (fun update member piece replaced read => ?_) done
      obtain ⟨nonempty, noReturn⟩ := noReturns update member
      have inline : Inline update.computed.toList := by
        intro c own
        have notFeed : c ≠ '\n' := fun same => plainHashes update member (same ▸ own)
        have notReturn : c ≠ '\r' := fun same => noReturn (same ▸ own)
        simp [isLineEnd, notFeed, notReturn]
      exact keepsEnding_of_replaceHash? read inline fun empty =>
        nonempty (String.toList_eq_nil_iff.mp empty)
    constructor
    · refine cut.trans (List.filter_eq_self.mpr fun new member => decide_eq_true ?_)
      obtain ⟨i, inside, rfl⟩ := List.getElem_of_mem member
      have within : i < (pieces text.toList).length := kept.length_eq ▸ inside
      exact (kept.get within inside).2 (ne_nil_of_mem_pieces _ (List.getElem_mem within))
    · rw [← List.forall₂_eq_eq_eq, List.forall₂_map_left_iff, List.forall₂_map_right_iff]
      exact kept.flip.imp fun new piece given => given.1

/-- A rewrite changes the pieces at which its changes find their markers, and of those only the
content. Changes of different recorded lines may come in any order. -/
theorem rewrite_local (path text : String) {updates : List HashUpdate}
    (plainHashes : ∀ update ∈ updates, '\n' ∉ update.computed.toList)
    : (∀ result, rewrite path text updates = .ok result →
        ∃ changed, Local text.toList result.toList updates changed)
      ∧ ((updates.map HashUpdate.line).Nodup →
          (∀ update ∈ updates, update.IsRecorded (pieces text.toList)) →
          ∀ others, updates.Perm others →
            (rewrite path text updates).toOption = (rewrite path text others).toOption) := by
  have outcome (updates : List HashUpdate)
      : (rewrite path text updates).toOption
        = (applyAll path (pieces text.toList) updates).toOption.map
            (fun changed => String.ofList changed.flatten) := by
    rw [rewrite]
    cases applyAll path (pieces text.toList) updates <;> rfl
  constructor
  · intro result rewritten
    rw [rewrite] at rewritten
    cases done : applyAll path (pieces text.toList) updates with
    | error error =>
        rw [done] at rewritten
        cases rewritten
    | ok changed =>
        rw [done] at rewritten
        cases rewritten
        rw [String.toList_ofList]
        exact ⟨changed, local_of_applyAll plainHashes done⟩
  · intro distinct recorded others perm
    rw [outcome, outcome, HashUpdate.toOption_applyAll_eq_of_perm path perm distinct recorded]

/-- A text with one closing marker on two lines that end differently. -/
def sameMarkersText : String :=
  "*End* *A* | **Hash**: 0a\n# B\n*End* *A* | **Hash**: 0a\r\n"

def sameMarkersUpdates : List HashUpdate :=
  [⟨"spec.md", "REQ-p00001", 1, "*End* *A* | **Hash**: 0a", some "0a", "1b2c"⟩,
    ⟨"spec.md", "REQ-p00002", 3, "*End* *A* | **Hash**: 0a", some "0a", "3d4e"⟩]

theorem rewrite_local_sameMarkersText
    : (∀ update ∈ sameMarkersUpdates, '\n' ∉ update.computed.toList)
      ∧ (sameMarkersUpdates.map HashUpdate.line).Nodup
      ∧ (∀ update ∈ sameMarkersUpdates, update.IsRecorded (pieces sameMarkersText.toList))
      ∧ ∃ result changed,
          result = "*End* *A* | **Hash**: 1b2c\n# B\n*End* *A* | **Hash**: 3d4e\r\n"
          ∧ Local sameMarkersText.toList result.toList sameMarkersUpdates changed
          ∧ (rewrite "spec.md" sameMarkersText sameMarkersUpdates.reverse).toOption
            = some result := by
  have plainHashes : ∀ update ∈ sameMarkersUpdates, '\n' ∉ update.computed.toList := by
    decide +kernel
  have distinct : (sameMarkersUpdates.map HashUpdate.line).Nodup := by decide +kernel
  have recorded : ∀ update ∈ sameMarkersUpdates,
      update.IsRecorded (pieces sameMarkersText.toList) := by
    unfold HashUpdate.IsRecorded
    decide +kernel
  have rewritten : rewrite "spec.md" sameMarkersText sameMarkersUpdates
      = .ok "*End* *A* | **Hash**: 1b2c\n# B\n*End* *A* | **Hash**: 3d4e\r\n" := by
    decide +kernel
  obtain ⟨keeps, anyOrder⟩ := rewrite_local "spec.md" sameMarkersText plainHashes
  obtain ⟨changed, isLocal⟩ := keeps _ rewritten
  refine ⟨plainHashes, distinct, recorded, _, changed, rfl, isLocal, ?_⟩
  rw [← anyOrder distinct recorded _ (List.reverse_perm _).symm, rewritten]
  rfl

end Rewrite

end Traceability
