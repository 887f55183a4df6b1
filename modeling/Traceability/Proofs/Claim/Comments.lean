import Traceability.Proofs.Claim.OpenedMarkers

/-! Comments are exactly the closed ones.
A comment goes from the line on which it opens to the first closing sign behind its opening sign,
and no gap comes before that. A comment that opens inside another is part of it; any other is
missed only if its run of lines goes on without a closing sign.
-/

namespace Traceability

open Text

-----------------------------------------------------------------------------------------
-- Where the closing sign is looked for
-----------------------------------------------------------------------------------------

namespace Claim.Comment

variable {scheme : Scheme} {line : Line} {rest : List Line} {afterSign : List Char}

/-- A comment opens on a line: what is left of the line without the blanks in front starts with the
opening sign, and no keyword of a reference stands behind that. -/
def Opens (scheme : Scheme) (line : Line) (afterSign : List Char) : Prop :=
  trimStart line.text.toList = openSign ++ afterSign
  ∧ ∀ keyword ∈ scheme.markerKeywords, ∀ tail,
      ¬ Marker.Opens Char.toLower keyword.toList afterSign tail

/-- The texts in which the closing sign is looked for: what follows the opening sign, and the lines
behind it. -/
def searched (afterSign : List Char) (further : List Line) : List (List Char) :=
  afterSign :: further.map (fun line => line.text.toList)

/-- The last of the texts is the first that holds the closing sign. -/
def EndsAtClose (texts : List (List Char)) : Prop :=
  ∃ front last,
    texts = front ++ [last]
    ∧ closeSign <:+: last
    ∧ ∀ s ∈ front, ¬ closeSign <:+: s

/-- The closing sign stands in the texts of some lines behind the opening sign, the numbers of which
are consecutive. -/
def IsClosedWithin (line : Line) (rest : List Line) (afterSign : List Char) : Prop :=
  ∃ further,
    further <+: rest
    ∧ Line.Consecutive (line :: further)
    ∧ ∃ s ∈ searched afterSign further, closeSign <:+: s

theorem afterOpen?_eq_some_iff
    : afterOpen? scheme line.text = some afterSign ↔ Opens scheme line afterSign := by
  have left : opensReference scheme afterSign = false
      ↔ ∀ keyword ∈ scheme.markerKeywords, ∀ tail,
          ¬ Marker.Opens Char.toLower keyword.toList afterSign tail := by
    rw [← Bool.not_eq_true, opensReference_iff]
    push Not
    rfl
  rw [Opens, ← left, ← strip?_eq_some_iff, afterOpen?]
  cases sign : strip? openSign (trimStart line.text.toList) with
  | none => simp
  | some behind => cases marked : opensReference scheme behind <;> grind

theorem endsAtClose_append_iff {front : List (List Char)} {last : List Char}
    : EndsAtClose (front ++ [last])
      ↔ closeSign <:+: last ∧ ∀ s ∈ front, ¬ closeSign <:+: s := by
  constructor
  · intro ⟨front', last', same, closed, passed⟩
    obtain ⟨rfl, single⟩ := List.append_inj' same rfl
    obtain rfl := List.singleton_inj.mp single
    exact ⟨closed, passed⟩
  · intro ⟨closed, passed⟩
    exact ⟨front, last, rfl, closed, passed⟩

/-- Behind its first line a comment ends at the first line that holds the closing sign. -/
theorem endsAtClose_searched_iff {inner : List Line} {last : Line}
    : EndsAtClose (searched afterSign (inner ++ [last]))
      ↔ ¬ contains closeSign afterSign = true
        ∧ closes last = true
        ∧ ∀ other ∈ inner, closes other = false := by
  have split : searched afterSign (inner ++ [last])
      = searched afterSign inner ++ [last.text.toList] := by
    rw [searched, List.map_append, List.map_singleton, ← List.cons_append]
    rfl
  rw [split, endsAtClose_append_iff, searched]
  simp only [List.forall_mem_cons, List.forall_mem_map, ← contains_iff, closes, Bool.not_eq_true]
  tauto

/-- A comment is read exactly if it opens on the line and is closed behind it, and it goes up to the
first closing sign. -/
theorem opens?_eq_some_iff {count : Nat} {held : Content}
    : opens? scheme line rest = some (count, held)
      ↔ ∃ afterSign further more,
          Opens scheme line afterSign
          ∧ rest = further ++ more
          ∧ Line.Consecutive (line :: further)
          ∧ EndsAtClose (searched afterSign further)
          ∧ count = further.length
          ∧ held = content (line :: further) := by
  constructor
  · intro opened
    obtain ⟨afterSign, sign, opened⟩ := Option.bind_eq_some_iff.mp opened
    refine ⟨afterSign, ?_⟩
    split at opened
    · next closed =>
        cases opened
        refine ⟨[], rest, afterOpen?_eq_some_iff.mp sign, rfl, .singleton _, ?_, rfl, rfl⟩
        exact ⟨[], afterSign, rfl, contains_iff.mp closed, List.forall_mem_nil _⟩
    · next unclosed =>
        obtain ⟨⟨inner, last⟩, found, opened⟩ := Option.bind_eq_some_iff.mp opened
        cases opened
        obtain ⟨more, rfl, consecutive, closed, passed⟩ := Line.upTo?_eq_some_iff.mp found
        refine ⟨inner ++ [last], more, afterOpen?_eq_some_iff.mp sign, by simp, consecutive, ?_,
          by simp, by simp⟩
        exact endsAtClose_searched_iff.mpr
          ⟨unclosed, closed, fun other member => (passed other member).1⟩
  · rintro ⟨afterSign, further, more, sign, rfl, consecutive, ends, rfl, rfl⟩
    rw [opens?, afterOpen?_eq_some_iff.mpr sign, Option.bind_eq_bind, Option.bind_some]
    rcases List.eq_nil_or_concat further with rfl | ⟨inner, last, rfl⟩
    · have closed := (@endsAtClose_append_iff [] afterSign).mp ends
      rw [if_pos (contains_iff.mpr closed.1)]
      rfl
    · rw [List.concat_eq_append] at consecutive ends ⊢
      obtain ⟨unclosed, closed, passed⟩ := endsAtClose_searched_iff.mp ends
      have found : line.upTo? closes (fun _ => false) (inner ++ [last] ++ more)
          = some (inner, last) :=
        Line.upTo?_eq_some_iff.mpr ⟨more, by simp, consecutive, closed,
          fun other member => ⟨passed other member, rfl⟩⟩
      rw [if_neg unclosed, found]
      simp

/-- A comment that is closed somewhere in its run is closed there for the first time. -/
theorem exists_opens?_of_isClosedWithin (sign : Opens scheme line afterSign)
    (closed : IsClosedWithin line rest afterSign)
    : ∃ count held, opens? scheme line rest = some (count, held) := by
  obtain ⟨further, ⟨more, rfl⟩, consecutive, s, member, holds⟩ := closed
  by_cases here : closeSign <:+: afterSign
  · exact ⟨_, _, opens?_eq_some_iff.mpr
      ⟨afterSign, [], further ++ more, sign, rfl, .singleton _,
        ⟨[], afterSign, rfl, here, List.forall_mem_nil _⟩, rfl, rfl⟩⟩
  · have later : (further.find? closes).isSome = true := by
      rcases List.mem_cons.mp member with rfl | behind
      · exact absurd holds here
      · obtain ⟨other, own, rfl⟩ := List.mem_map.mp behind
        exact List.find?_isSome.mpr ⟨other, own, contains_iff.mpr holds⟩
    obtain ⟨last, found⟩ := Option.isSome_iff_exists.mp later
    obtain ⟨closes, inner, behind, rfl, passed⟩ := List.find?_eq_some_iff_append.mp found
    have front : Line.Consecutive (line :: (inner ++ [last])) := by
      refine consecutive.prefix ⟨behind, ?_⟩
      simp
    have ends : EndsAtClose (searched afterSign (inner ++ [last])) :=
      endsAtClose_searched_iff.mpr ⟨fun found => here (contains_iff.mp found), closes,
        fun other own => by simpa using passed other own⟩
    exact ⟨_, _, opens?_eq_some_iff.mpr
      ⟨afterSign, inner ++ [last], behind ++ more, sign, by simp, front, ends, rfl, rfl⟩⟩

-----------------------------------------------------------------------------------------
-- The comments of a file
-----------------------------------------------------------------------------------------

/-- The blocks are the comments among the lines that are closed, in order: each goes from a line
that opens one to the first closing sign behind the opening sign, without a gap, and no line that
opens one is left out unless its run of lines goes on without a closing sign. -/
structure AreClosed (scheme : Scheme) (lines : List Line) (blocks : List Block) : Prop where
  closed
    : ∀ block ∈ blocks, ∃ line further rest afterSign,
        line :: (further ++ rest) <:+ lines
        ∧ Opens scheme line afterSign
        ∧ Line.Consecutive (line :: further)
        ∧ EndsAtClose (searched afterSign further)
        ∧ block = Block.ofLines line further (content (line :: further))
  unmissed
    : ∀ line rest afterSign,
        line :: rest <:+ lines → Opens scheme line afterSign →
        (∀ block ∈ blocks, block.includes line.number = false) →
          ¬ IsClosedWithin line rest afterSign
  unclosed
    : ∀ line rest afterSign,
        line :: rest <:+ lines → Opens scheme line afterSign →
        ¬ IsClosedWithin line rest afterSign →
          ∀ block ∈ blocks, block.startLine ≠ line.number
  ordered : blocks.Pairwise (fun a b => a.endLine < b.startLine)

/-- A comment that is read is closed within its run. -/
theorem isClosedWithin_of_opens? {count : Nat} {held : Content}
    (sign : Opens scheme line afterSign) (opened : opens? scheme line rest = some (count, held))
    : IsClosedWithin line rest afterSign := by
  obtain ⟨behind, further, more, signToo, rfl, consecutive, ⟨front, last, texts, closed, -⟩, -⟩ :=
    opens?_eq_some_iff.mp opened
  obtain rfl : behind = afterSign := List.append_cancel_left (signToo.1.symm.trans sign.1)
  refine ⟨further, List.prefix_append further more, consecutive, last, ?_, closed⟩
  exact texts ▸ List.mem_concat_self

/-- Whatever the configuration, comments are claimed exactly where they are closed. -/
theorem areClosed_claim (context : ClaimContext) {lines : List Line}
    (ascending : Line.Ascending lines)
    : AreClosed context.scheme lines (comment.claim context lines) := by
  have contiguous := contiguous context.scheme
  constructor
  case closed =>
    intro block member
    obtain ⟨line, rest, count, held, behind, opened, rfl⟩ := Block.mem_sweep member
    obtain ⟨afterSign, further, more, sign, rfl, consecutive, ends, rfl, rfl⟩ :=
      opens?_eq_some_iff.mp opened
    refine ⟨line, further, more, afterSign, behind, sign, consecutive, ends, ?_⟩
    rw [List.take_left]
  case unmissed =>
    intro line rest afterSign behind sign outside closed
    obtain ⟨count, held, opened⟩ := exists_opens?_of_isClosedWithin sign closed
    obtain ⟨block, own, inside⟩ :=
      Block.exists_includes_of_opens contiguous ascending behind opened
    rw [outside block own] at inside
    cases inside
  case unclosed =>
    intro line rest afterSign behind sign unclosed block member starts
    obtain ⟨count, held, opened, -⟩ :=
      Block.opened_of_mem_sweep ascending behind member starts
    exact unclosed (isClosedWithin_of_opens? sign opened)
  case ordered =>
    exact Block.sweep_pairwise_before contiguous ascending

/-- Lines with comments that open inside others, with one that opens with a reference, with a gap
in front of a closing sign, and with one that is never closed. -/
def nestedLines : List Line := [
  ⟨1, "<!-- open"⟩, ⟨2, "<!-- inside"⟩, ⟨3, "end -->"⟩, ⟨4, "<!-- Implements: REQ-p00001 -->"⟩,
  ⟨5, "<!-->"⟩, ⟨7, "-->"⟩, ⟨8, "  <!-- alone --> more"⟩, ⟨9, "<!-- never"⟩]

theorem areClosed_claim_nestedLines
    : let context : ClaimContext := { path := "spec/a.md", scheme := Config.defaultScheme }
      let blocks := comment.claim context nestedLines
      Line.Ascending nestedLines
        ∧ blocks.map (fun block => (block.startLine, block.endLine)) = [(1, 3), (8, 8)]
        ∧ AreClosed Config.defaultScheme nestedLines blocks := by
  have ascending : Line.Ascending nestedLines := by
    unfold Line.Ascending
    decide
  exact ⟨ascending, by decide +kernel,
    areClosed_claim { path := "spec/a.md", scheme := Config.defaultScheme } ascending⟩

end Claim.Comment

end Traceability
