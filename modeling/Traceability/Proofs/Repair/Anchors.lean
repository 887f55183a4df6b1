import Traceability.Proofs.Repair.Plan
import Traceability.Proofs.Text.Returns

/-! Which planned changes find their markers.
A rewrite compares markers without the line ends behind them, and looks for the old hash behind
the last key of a marker. It therefore misses exactly the markers that end with a carriage
return and those whose hash names the key again behind its first character.
-/

namespace Traceability

open Text Rewrite

-----------------------------------------------------------------------------------------
-- Hashes that can be replaced
-----------------------------------------------------------------------------------------

namespace ClosingMarker

/-- What stands from the last key on holds the hash of a marker exactly if the hash does not
name the key behind its first character. Witness: if it does, the last key is inside the hash,
and what stands from there on is too short; otherwise the last key is not behind the hash. -/
theorem infix_key_append_iff {front hash blanks before after : List Char} (solid : Solid hash)
    (allBlank : Blanks blanks)
    (last : cutLast? key (front ++ (hash ++ blanks)) = some (before, after))
    : hash <:+: key ++ after ↔ ¬ key <:+: hash.tail := by
  obtain ⟨first, tail, rfl⟩ := List.exists_cons_of_ne_nil solid.1
  have whole := cutLast?_eq last
  rw [List.tail_cons]
  constructor
  · intro ⟨left, right, holds⟩ ⟨pre, post, named⟩
    -- The key in the hash stands before no other.
    have inner : key ++ (post ++ blanks) <:+ front ++ (first :: tail ++ blanks) :=
      ⟨front ++ first :: pre, by simp [← named]⟩
    obtain ⟨before', after', found, shorter⟩ :=
      exists_cutLast? (List.prefix_append key (post ++ blanks)) inner
    obtain ⟨rfl, rfl⟩ := Prod.mk.inj (Option.some.inj (last.symm.trans found))
    have inside : first :: tail <:+: (key ++ post) ++ blanks := by
      rw [List.append_assoc]
      exact List.IsInfix.trans ⟨left, right, holds⟩ shorter.isInfix
    have short := ((infix_append_blanks_iff solid allBlank _).mp inside).length_le
    rw [← named] at short
    simp at short
  · intro unnamed
    have ends : key ++ after <:+ front ++ (first :: tail ++ blanks) := ⟨before, whole.symm⟩
    have own : first :: tail ++ blanks <:+ front ++ (first :: tail ++ blanks) :=
      List.suffix_append _ _
    rcases List.suffix_or_suffix_of_suffix own ends with behind | within
    · exact (List.prefix_append _ _).isInfix.trans behind.isInfix
    · rcases List.suffix_cons_iff.mp within with same | shorter
      · exact ⟨[], blanks, same.symm⟩
      · have occurs : key <:+: tail ++ blanks :=
          (List.prefix_append key after).isInfix.trans shorter.isInfix
        exact absurd ((infix_append_blanks_iff solid_key allBlank _).mp occurs) unnamed

/-- The hash of a marker can be replaced unless it names the key behind its first character. -/
theorem exists_replaceHash?_iff {text : String} {marker : ClosingMarker}
    (read : ofLine? text = some marker) (computed : List Char)
    : (∃ replaced,
          replaceHash? text.toList (marker.hash?.map String.toList) computed = some replaced)
      ↔ ∀ hash ∈ marker.hash?, ¬ key <:+: hash.toList.tail := by
  cases known : marker.hash? with
  | none => exact iff_of_true ⟨_, rfl⟩ (by simp)
  | some hash =>
      obtain ⟨head, bar, colon, blanks, -, -, -, allBlank, solid, split⟩ :=
        exists_parts_of_hash read known
      have regroup
          : head ++ (bar ++ (key ++ (colon ++ (hash.toList ++ blanks))))
            = (head ++ bar ++ key ++ colon) ++ (hash.toList ++ blanks) := by simp
      have keyed : key ++ (colon ++ (hash.toList ++ blanks)) <:+ text.toList := by
        rw [split]
        exact ⟨head ++ bar, by simp⟩
      obtain ⟨before, after, last, -⟩ := exists_cutLast? (List.prefix_append key _) keyed
      have holds := last
      rw [split, regroup] at holds
      have replaces
          : (∃ replaced, replaceHash? text.toList (some hash.toList) computed = some replaced)
            ↔ contains hash.toList (key ++ after) = true := by
        rw [← Option.isSome_iff_exists, replaceHash?, show "**Hash**".toList = key from rfl, last,
          contains]
        simp only [Option.bind_eq_bind, Option.bind_some]
        cases cutFirst? hash.toList (key ++ after) <;> rfl
      rw [Option.map_some, replaces, contains_iff, infix_key_append_iff solid allBlank holds]
      simp

end ClosingMarker

-----------------------------------------------------------------------------------------
-- Changes that find their markers
-----------------------------------------------------------------------------------------

namespace HashUpdate

/-- The marker of a change can be found again: no carriage return ends it, and the hash on it
does not name the key behind its first character. -/
def isAnchored (update : HashUpdate) : Bool :=
  update.anchor.toList.getLast? != some '\r'
    && !update.stored.any (fun hash => contains ClosingMarker.key hash.toList.tail)

/-- What a rewrite that misses the marker of a change reports. -/
def notFound (path : String) (update : HashUpdate) : AnchorNotFound :=
  ⟨path, update.id, update.line⟩

variable {scheme : Scheme} {path text : String} {length : Nat}

/-- What is known of a planned change: its marker is the recorded line, and can be revised
unless the hash on it names the key again. -/
theorem recorded_of_mem_plan {update : HashUpdate}
    (planned : update ∈ plan (Graph.ofText scheme path text) length)
    : 1 ≤ update.line
      ∧ (lines text.toList)[update.line - 1]? = some update.anchor.toList
      ∧ ((∃ replaced,
            replaceHash? update.anchor.toList (update.stored.map String.toList)
                update.computed.toList
              = some replaced)
          ↔ ∀ hash ∈ update.stored, ¬ ClosingMarker.key <:+: hash.toList.tail) := by
  obtain ⟨node, member, change⟩ := mem_plan_iff.mp planned
  obtain ⟨block, origin⟩ := Graph.exists_origin member
  obtain ⟨marker, read, hash⟩ := exists_marker origin
  obtain ⟨positive, here⟩ := Line.getElem?_of_mem_numbered origin.line
  obtain ⟨-, rfl⟩ := ofNode?_eq_some_iff.mp change
  refine ⟨positive, here, ?_⟩
  rw [hash]
  exact ClosingMarker.exists_replaceHash?_iff read _

/-- A planned change whose marker can be found again is located. -/
theorem located_of_isAnchored {update : HashUpdate}
    (planned : update ∈ plan (Graph.ofText scheme path text) length)
    (anchored : update.isAnchored = true)
    : Located (pieces text.toList) update := by
  obtain ⟨positive, here, replaceable⟩ := recorded_of_mem_plan planned
  rw [isAnchored, Bool.and_eq_true, bne_iff_ne, Bool.not_eq_true', Option.any_eq_false] at anchored
  obtain ⟨noReturn, unnamed⟩ := anchored
  refine ⟨positive, ?_, replaceable.mpr (fun hash stored named => ?_)⟩
  · have plain : '\n' ∉ update.anchor.toList :=
      feed_not_mem_of_mem_lines (List.mem_of_getElem? here)
    rw [Text.lines, List.getElem?_map] at here
    obtain ⟨piece, own, line⟩ := Option.map_eq_some_iff.mp here
    have whole : contentOf update.anchor.toList = update.anchor.toList := by
      refine contentOf_eq_self_iff.mpr (fun c last => ?_)
      have notFeed : c ≠ '\n' := fun same => plain (same ▸ List.mem_of_getLast? last)
      have notReturn : c ≠ '\r' := fun same => noReturn (same ▸ last)
      simp [isLineEnd, notFeed, notReturn]
    rw [own, Option.map_some, ← contentOf_dropTerminator, line, whole]
  · have absent := unnamed hash stored
    rw [contains_iff.mpr named] at absent
    exact Bool.noConfusion absent

/-- A planned change whose marker cannot be found again cannot be made, whatever has become of
the text. -/
theorem change?_eq_none {update : HashUpdate}
    (planned : update ∈ plan (Graph.ofText scheme path text) length)
    (lost : update.isAnchored = false) (pieces : List (List Char))
    : change? pieces update = none := by
  obtain ⟨-, -, replaceable⟩ := recorded_of_mem_plan planned
  rw [Option.eq_none_iff_forall_ne_some]
  intro changed made
  obtain ⟨position, piece, replaced, located, here, read, -⟩ := parts_of_change? made
  have content : contentOf piece = update.anchor.toList := by
    have anchored := contentOf_of_locate? located
    rw [here] at anchored
    exact Option.some.inj anchored
  rw [isAnchored, Bool.and_eq_false_iff] at lost
  rcases lost with returns | named
  · have last : update.anchor.toList.getLast? = some '\r' := by simpa using returns
    have own := contentOf_eq_self_iff.mp (contentOf_contentOf piece)
    exact absurd (own '\r' (content ▸ last)) (by decide)
  · rw [Bool.not_eq_false', Option.any_eq_true] at named
    obtain ⟨hash, stored, holds⟩ := named
    rw [content] at read
    exact replaceable.mp ⟨replaced, read⟩ hash stored (contains_iff.mp holds)

/-- Of changes of different lines the first whose marker cannot be found again is reported.
Witness: induction along the changes; a change that is made leaves those behind it located. -/
theorem applyAll_eq_error_iff {pieces : List (List Char)} {updates : List HashUpdate}
    (distinct : (updates.map HashUpdate.line).Nodup)
    (located : ∀ update ∈ updates, update.isAnchored = true → Located pieces update)
    (lost : ∀ update ∈ updates, update.isAnchored = false → ∀ pieces, change? pieces update = none)
    (error : AnchorNotFound)
    : applyAll path pieces updates = .error error
      ↔ (updates.find? (fun update => !update.isAnchored)).map (notFound path) = some error := by
  induction updates generalizing pieces with
  | nil => simp [applyAll]
  | cons update rest ih =>
      cases anchored : update.isAnchored with
      | true =>
          have own := located update List.mem_cons_self anchored
          rw [List.map_cons, List.nodup_cons] at distinct
          rw [applyAll, own.change?_eq, List.find?_cons_of_neg (by simp [anchored])]
          exact ih distinct.2
            (fun other member found =>
              (located other (List.mem_cons_of_mem _ member) found).revise
                (fun same => distinct.1 (same ▸ List.mem_map_of_mem member)))
            (fun other member => lost other (List.mem_cons_of_mem _ member))
      | false =>
          rw [applyAll, lost update List.mem_cons_self anchored,
            List.find?_cons_of_pos (by simp [anchored]), Option.map_some, Option.some.injEq,
            Except.error.injEq, notFound]

/-- Rewriting a text with the changes that were planned for it fails exactly if the marker of
some change ends with a carriage return or has a hash that names the key again behind its first
character. The first such marker is reported. -/
theorem rewrite_plan_eq_error_iff (scheme : Scheme) (path text : String) (length : Nat)
    (error : AnchorNotFound)
    : let updates := plan (Graph.ofText scheme path text) length
      rewrite path text updates = .error error
      ↔ (updates.find? (fun update => !update.isAnchored)).map (notFound path) = some error := by
  intro updates
  have applied
      : applyAll path (pieces text.toList) updates = .error error
        ↔ (updates.find? (fun update => !update.isAnchored)).map (notFound path) = some error :=
    applyAll_eq_error_iff plan_nodup (fun update => located_of_isAnchored)
      (fun update => change?_eq_none) error
  rw [← applied, rewrite]
  split
  · next done => simp [done]
  · next failed => simp [failed]

/-- A closing marker in front of two carriage returns, of which a line end takes one. -/
def twoReturnsText : String :=
  "# REQ-p00001: Login\n*End* *Login*\r\r\n"

/-- A closing marker whose hash names the key. -/
def keyInHashText : String :=
  "# REQ-p00001: Login\n*End* *Login* | **Hash**: x**Hash**y\n"

/-- Changes that were planned for a text cannot always be made in it. -/
theorem rewrite_plan_twoReturnsText_keyInHashText
    : ({} : Config).compile = .ok Config.defaultScheme
      ∧ ∀ text ∈ [twoReturnsText, keyInHashText],
          rewrite "spec.md" text
              (plan (Graph.ofText Config.defaultScheme "spec.md" text)
                Config.defaultScheme.hashLength)
            = .error ⟨"spec.md", "REQ-p00001", 2⟩ := by
  refine ⟨Config.compile_default, ?_⟩
  decide +kernel

end HashUpdate

end Traceability
