import Traceability.Proofs.Claim.Matching
import Traceability.Proofs.Digest.Canonical
import Traceability.Proofs.Line.Padding

/-! Blocks of lines with spaces and tabs after them.
Every claimant proposes the blocks that it proposed without them, so the partition of a file is
the same. What a block holds is the same too, but for the body of a requirement, whose canonical
form stays, and for its closing marker.
-/

namespace Traceability

open Text

/-- A change that appends spaces and tabs to lines. -/
structure PadsLines (edit : Line → Line) : Prop where
  number : ∀ line, (edit line).number = line.number
  padded : ∀ line, Padded line.text.toList (edit line).text.toList

/-- The requirement with its body in canonical form, without its closing marker. -/
def Requirement.plain (requirement : Requirement) : Requirement :=
  { requirement with
    body := String.ofList (Canonical.form requirement.body.toList)
    endMarker := "" }

def Content.plain (content : Content) : Content :=
  content.revise Requirement.plain

def Block.plain (block : Block) : Block :=
  block.revise Requirement.plain

/-- There are no line ends inside the lines. -/
def Line.AllInline (lines : List Line) : Prop :=
  ∀ line ∈ lines, Inline line.text.toList

variable {edit : Line → Line} {scheme : Scheme}

/-- Spaces and tabs are no line ends. -/
theorem Text.Padded.inline {s t : List Char} (padded : Padded s t) (inline : Inline s)
    : Inline t := by
  obtain ⟨padding, split⟩ := padded.exists_padding
  intro c member
  rw [split] at member
  rcases List.mem_append.mp member with own | appended
  · exact inline c own
  · rcases padding.spaceOrTab c appended with rfl | rfl <;> rfl

-----------------------------------------------------------------------------------------
-- Sweeps
-----------------------------------------------------------------------------------------

namespace Block

theorem samePlaces_plain : SamePlaces plain plain := by
  intro block other same
  have places := Block.mk.inj same
  exact ⟨places.1, places.2.1⟩

/-- A sweep whose test answers alike finds the same blocks. -/
theorem sweep_plain (pads : PadsLines edit) {lines : List Line}
    {opens? : Line → List Line → Option (Nat × Content)}
    (alike
      : ∀ line rest, line :: rest <:+ lines →
          (opens? (edit line) (rest.map edit)).map (Prod.map id Content.plain)
          = (opens? line rest).map (Prod.map id Content.plain))
    : (sweep opens? (lines.map edit)).map plain = (sweep opens? lines).map plain := by
  refine sweep_map (fun _ => True) ?_ ?_ (fun _ _ => trivial)
  · intro line rest behind none'
    have same := alike line rest behind
    rw [none', Option.map_none] at same
    exact Option.map_eq_none_iff.mp same
  · intro line rest count content behind found _
    have same := alike line rest behind
    rw [found, Option.map_some] at same
    obtain ⟨⟨taken, changed⟩, still, parts⟩ := Option.map_eq_some_iff.mp same
    obtain ⟨counted, held⟩ := Prod.mk.inj parts
    have counted : taken = count := counted
    refine ⟨changed, counted ▸ still, ?_⟩
    have last := endLine_ofLines_map pads.number line (rest.take count) content changed
    have first : (ofLines (edit line) ((rest.take count).map edit) changed).startLine
        = (ofLines line (rest.take count) content).startLine := pads.number line
    rw [plain, plain, revise, revise, first, last]
    exact congrArg (Block.mk _ _ "") held

/-- A sweep whose test answers the same finds the same blocks. -/
theorem sweep_plain_of_eq (pads : PadsLines edit) {lines : List Line}
    {opens? : Line → List Line → Option (Nat × Content)}
    (same
      : ∀ line rest, line :: rest <:+ lines →
          opens? (edit line) (rest.map edit) = opens? line rest)
    : (sweep opens? (lines.map edit)).map plain = (sweep opens? lines).map plain :=
  sweep_plain pads (fun line rest behind => congrArg _ (same line rest behind))

end Block

namespace Claim

variable (pads : PadsLines edit) (readable : scheme.Readable)

-----------------------------------------------------------------------------------------
-- Comments
-----------------------------------------------------------------------------------------

namespace Comment

include pads in
theorem content_padded (lines : List Line) : content (lines.map edit) = content lines := by
  have trimmed : (fun line : Line => trim line.text.toList) ∘ edit
      = fun line => trim line.text.toList :=
    funext (fun line => (pads.padded line).trim_eq)
  simp only [content, payload, List.map_map, trimmed]

include readable in
theorem opensReference_padded {s t : List Char} (padded : Padded s t)
    : opensReference scheme t = opensReference scheme s := by
  have colon : Unpadded [':'] := by decide
  have starts {keyword : String} (solid : EndsSolid keyword.toList) {s t : List Char}
      (padded : Padded s t)
      : startsMarker keyword t = startsMarker keyword s := by
    have behind := padded.stripBy solid.toLower
    rw [← stripLetters?_eq_stripBy, ← stripLetters?_eq_stripBy] at behind
    rw [startsMarker, startsMarker]
    generalize stripLetters? keyword.toList s = left at behind ⊢
    generalize stripLetters? keyword.toList t = more at behind ⊢
    cases behind with
    | none => rfl
    | some rest => exact isSome_eq_of_rel (rest.trimStart.strip? colon)
  simp only [opensReference, starts readable.implementsKeyword padded.trimStart,
    starts readable.validatesKeyword padded.trimStart]

include readable in
theorem afterOpen?_padded {text other : String} (padded : Padded text.toList other.toList)
    : Option.Rel Padded (afterOpen? scheme text) (afterOpen? scheme other) := by
  have sign : Unpadded openSign := by decide
  have behind := padded.trimStart.strip? sign
  rw [afterOpen?, afterOpen?]
  generalize strip? openSign (trimStart text.toList) = left at behind ⊢
  generalize strip? openSign (trimStart other.toList) = more at behind ⊢
  cases behind with
  | none => exact .none
  | some rest =>
      dsimp only
      rw [opensReference_padded readable rest]
      split
      · exact .none
      · exact .some rest

include pads readable in
theorem opens?_padded (line : Line) (rest : List Line)
    : opens? scheme (edit line) (rest.map edit) = opens? scheme line rest := by
  have sign : Unpadded closeSign := by decide
  have closing (line : Line) : closes (edit line) = closes line :=
    (pads.padded line).contains_eq (by decide) sign
  have look := Line.upTo?_map closes (fun _ => false) pads.number line
    (fun other (_ : other ∈ rest) => ⟨closing other, rfl⟩)
  refine bind_eq_of_rel (afterOpen?_padded readable (pads.padded line)) (fun s t afterOpen => ?_)
  rw [afterOpen.contains_eq (by decide) sign, look]
  split
  · exact congrArg (fun content => some (0, content)) (content_padded pads [line])
  · cases line.upTo? closes (fun _ => false) rest with
    | none => simp only [Option.map_none, Option.bind_eq_bind, Option.bind_none]
    | some found =>
        have lines := content_padded pads (line :: found.1 ++ [found.2])
        rw [List.map_append, List.map_cons] at lines
        simp only [Option.map_some, Option.bind_eq_bind, Option.bind_some, List.length_map]
        exact congrArg (fun content => some (found.1.length + 1, content)) lines

end Comment

-----------------------------------------------------------------------------------------
-- Requirements and journeys
-----------------------------------------------------------------------------------------

include pads in
theorem closesBlock_padded (line : Line) : closesBlock (edit line) = closesBlock line := by
  rw [closesBlock, closesBlock, ClosingMarker.ofLine?_padded (pads.padded line)]

namespace Requirement

include pads in
theorem isMetadata_padded (line : Line) : isMetadata (edit line) = isMetadata line := by
  rw [isMetadata, isMetadata, Field.ofLine_padded (pads.padded line)]

include pads in
theorem assertions_padded (lines : List Line)
    : assertions (lines.map edit) = assertions lines := by
  have continued : (fun line : Line => Item.continues line.text) ∘ edit
      = fun line => Item.continues line.text :=
    funext (fun line => Item.continues_padded (pads.padded line))
  have trimmed : (fun line : Line => trim line.text.toList) ∘ edit
      = fun line => trim line.text.toList :=
    funext (fun line => (pads.padded line).trim_eq)
  induction lines with
  | nil => rfl
  | cons line rest ih =>
      rw [List.map_cons, assertions, assertions, Item.assertion?_padded (pads.padded line), ih,
        List.takeWhile_map, continued]
      simp only [List.map_map, trimmed, pads.number]

include pads readable in
theorem stops_padded (line : Line) : stops scheme (edit line) = stops scheme line := by
  rw [stops, stops, readable.requirement?_padded (pads.padded line),
    readable.opensJourney_padded (pads.padded line)]

include pads in
/-- The canonical form of a body is made of lines without the blanks at their ends. -/
theorem form_joinTexts_padded {lines : List Line} (inline : Line.AllInline lines)
    : Canonical.form (Line.joinTexts (lines.map edit)).toList
      = Canonical.form (Line.joinTexts lines).toList := by
  have texts : ∀ row ∈ lines.map (fun line => line.text.toList), Inline row := by
    intro row member
    obtain ⟨line, own, rfl⟩ := List.mem_map.mp member
    exact inline line own
  have textsToo : ∀ row ∈ (lines.map edit).map (fun line => line.text.toList), Inline row := by
    intro row member
    obtain ⟨changed, listed, rfl⟩ := List.mem_map.mp member
    obtain ⟨line, own, rfl⟩ := List.mem_map.mp listed
    exact (pads.padded line).inline (inline line own)
  have trimmed
      : ((lines.map edit).map (fun line => line.text.toList)).map trimEnd
        = (lines.map (fun line => line.text.toList)).map trimEnd := by
    rw [List.map_map, List.map_map, List.map_map]
    exact List.map_congr_left (fun line _ => (pads.padded line).trimEnd_eq)
  rw [Line.joinTexts, Line.joinTexts, String.toList_ofList, String.toList_ofList, Canonical.form,
    Canonical.form, Canonical.lines_join_eq_core textsToo, Canonical.lines_join_eq_core texts,
    trimmed]

include pads in
theorem ofBlock_padded (heading : Heading) {inner : List Line} (last : Line)
    (inline : Line.AllInline inner)
    : (ofBlock heading (inner.map edit) (edit last)).plain
      = (ofBlock heading inner last).plain := by
  have metadata : (fun line => !isMetadata line) ∘ edit = fun line => !isMetadata line :=
    funext (fun line => congrArg _ (isMetadata_padded pads line))
  have behind : (inner.map edit).dropWhile (fun line => !isMetadata line)
      = (inner.dropWhile (fun line => !isMetadata line)).map edit := by
    rw [List.dropWhile_map, metadata]
  let found := inner.dropWhile (fun line => !isMetadata line)
  let content := if found = [] then inner else found.tail
  have fields
      : ((found.map edit).head?).map (fun line => Field.ofLine line.text)
        = (found.head?).map (fun line => Field.ofLine line.text) := by
    rw [List.head?_map, Option.map_map]
    exact Option.map_congr (fun line _ => Field.ofLine_padded (pads.padded line))
  have contents
      : (if found.map edit = [] then inner.map edit else (found.map edit).tail)
        = content.map edit := by
    simp only [List.map_eq_nil_iff, content]
    split
    · rfl
    · exact List.map_tail.symm
  have within : Line.AllInline content := by
    intro line member
    refine inline line ?_
    simp only [content] at member
    split at member
    · exact member
    · exact (List.dropWhile_suffix _).mem (List.mem_of_mem_tail member)
  rw [Traceability.Requirement.plain, Traceability.Requirement.plain]
  simp only [ofBlock, behind, found, fields, contents]
  rw [assertions_padded pads, form_joinTexts_padded pads within,
    ClosingMarker.ofLine?_padded (pads.padded last), pads.number]
  simp only [ne_eq, List.map_eq_nil_iff, content, found]

include pads readable in
theorem opens?_padded (line : Line) {rest : List Line} (inline : Line.AllInline rest)
    : (opens? scheme (edit line) (rest.map edit)).map (Prod.map id Content.plain)
      = (opens? scheme line rest).map (Prod.map id Content.plain) := by
  have look := Line.upTo?_map closesBlock (stops scheme) pads.number line
    (fun other (_ : other ∈ rest) =>
      ⟨closesBlock_padded pads other, stops_padded pads readable other⟩)
  rw [opens?, opens?, readable.requirement?_padded (pads.padded line), look]
  cases Heading.requirement? scheme line.text with
  | none => rfl
  | some heading =>
      cases found : line.upTo? closesBlock (stops scheme) rest with
      | none => rfl
      | some ends =>
          obtain ⟨inner, last⟩ := ends
          obtain ⟨further, split, -, -, -⟩ := Line.upTo?_spec found
          have within : Line.AllInline inner := fun other member =>
            inline other (split ▸ List.mem_append_left _ member)
          have same := ofBlock_padded pads heading last within
          simp only [Option.map_some, Option.bind_eq_bind, Option.bind_some, List.length_map]
          exact congrArg (fun held => some (inner.length + 1, Content.requirement held)) same

end Requirement

namespace Journey

include pads in
theorem ofBlock_padded (heading : Heading) (inner : List Line)
    : ofBlock heading (inner.map edit) = ofBlock heading inner := by
  have fields : (fun line : Line => Field.ofLine line.text) ∘ edit
      = fun line => Field.ofLine line.text :=
    funext (fun line => Field.ofLine_padded (pads.padded line))
  have steps : (fun line : Line => Item.step? line.text) ∘ edit
      = fun line => Item.step? line.text :=
    funext (fun line => Item.step?_padded (pads.padded line))
  rw [ofBlock, ofBlock, List.flatMap_map, List.filterMap_map, steps]
  simp only [Field.ofLine_padded (pads.padded _)]

include pads readable in
theorem opens?_padded (line : Line) (rest : List Line)
    : opens? scheme (edit line) (rest.map edit) = opens? scheme line rest := by
  have halts (line : Line) : stops scheme (edit line) = stops scheme line := by
    rw [stops, stops, readable.journey?_padded (pads.padded line),
      readable.opensRequirement_padded (pads.padded line)]
  have look := Line.upTo?_map closesBlock (stops scheme) pads.number line
    (fun other (_ : other ∈ rest) => ⟨closesBlock_padded pads other, halts other⟩)
  rw [opens?, opens?, readable.journey?_padded (pads.padded line), look]
  cases Heading.journey? scheme line.text with
  | none => rfl
  | some heading =>
      cases line.upTo? closesBlock (stops scheme) rest with
      | none => rfl
      | some found =>
          simp only [Option.map_some, Option.bind_eq_bind, Option.bind_some, List.length_map,
            ofBlock_padded pads]

end Journey

-----------------------------------------------------------------------------------------
-- References
-----------------------------------------------------------------------------------------

namespace Reference

include pads in
theorem continuation?_padded (idPrefix : String) (line : Line)
    : continuation? idPrefix (edit line) = continuation? idPrefix line := by
  refine bind_eq_of_rel (Marker.continuation?_padded (pads.padded line)) (fun s t rest => ?_)
  simp only [Marker.words_padded rest, pads.number]

include pads in
theorem continuations_padded (idPrefix : String) (line : Line) (rest : List Line)
    : continuations idPrefix (edit line) (rest.map edit) = continuations idPrefix line rest := by
  induction rest generalizing line with
  | nil => rfl
  | cons next rest ih =>
      rw [List.map_cons, continuations, continuations, pads.number, pads.number,
        continuation?_padded pads, ih]

include pads in
theorem marked?_padded (idPrefix : String) {keyword : String} (solid : EndsSolid keyword.toList)
    (line : Line) (rest : List Line)
    : marked? idPrefix keyword (edit line) (rest.map edit)
      = marked? idPrefix keyword line rest := by
  refine bind_eq_of_rel (Marker.rest?_padded solid (pads.padded line)) (fun s t behind => ?_)
  simp only [Marker.words_padded behind, continuations_padded pads, pads.number]

include pads in
theorem markers_padded (make : Traceability.Reference → Content) (idPrefix : String)
    {keyword : String} (solid : EndsSolid keyword.toList) (lines : List Line)
    : (markers make idPrefix keyword (lines.map edit)).map Block.plain
      = (markers make idPrefix keyword lines).map Block.plain := by
  refine Block.sweep_plain_of_eq pads (fun line rest _ => ?_)
  rw [marked?_padded pads idPrefix solid]

include pads in
theorem ofDefinition?_padded (line : Line)
    : (ofDefinition? scheme (edit line)).map Block.plain
      = (ofDefinition? scheme line).map Block.plain := by
  have single (content : Content)
      : (Block.ofLines (edit line) [] content).plain = (Block.ofLines line [] content).plain := by
    simp only [Block.plain, Block.revise, Block.ofLines, List.getLast_singleton, pads.number]
  rw [ofDefinition?, ofDefinition?, Definition.name?_padded (pads.padded line), pads.number]
  cases Definition.name? line.text with
  | none => rfl
  | some name =>
      simp only [Option.bind_eq_bind, Option.bind_some]
      split
      · split
        · rfl
        · exact congrArg some (single _)
      · rfl

include pads in
theorem withDefinitions_padded {marked others : List Block}
    (same : others.map Block.plain = marked.map Block.plain) (lines : List Line)
    : (withDefinitions scheme others (lines.map edit)).map Block.plain
      = (withDefinitions scheme marked lines).map Block.plain := by
  have taken (number : Nat)
      : others.any (fun block => block.includes number)
        = marked.any (fun block => block.includes number) := by
    have read (blocks : List Block)
        : blocks.any (fun block => block.includes number)
          = (blocks.map Block.plain).any (fun block => block.includes number) := by
      rw [List.any_map]
      rfl
    rw [read others, same, ← read marked]
  have free
      : (lines.map edit).filter (fun line =>
            !others.any (fun block => block.includes line.number))
        = (lines.filter (fun line =>
            !marked.any (fun block => block.includes line.number))).map edit := by
    simp only [taken]
    exact Registry.filter_number_map pads.number lines
      (fun number => !marked.any (fun block => block.includes number))
  have defined : (fun line => (ofDefinition? scheme line).map Block.plain) ∘ edit
      = fun line => (ofDefinition? scheme line).map Block.plain :=
    funext (ofDefinition?_padded pads)
  have sorted (blocks : List Block)
      : (blocks.mergeSort (fun a b => a.startLine ≤ b.startLine)).map Block.plain
        = (blocks.map Block.plain).mergeSort (fun a b => a.startLine ≤ b.startLine) :=
    List.map_mergeSort (fun _ _ _ _ => rfl)
  rw [withDefinitions, withDefinitions, free, sorted, sorted, List.map_append, List.map_append,
    same, List.map_filterMap, List.map_filterMap, List.filterMap_map, defined]

end Reference

-----------------------------------------------------------------------------------------
-- Claimants and files
-----------------------------------------------------------------------------------------

include pads in
theorem runLength_padded (line : Line) (rest : List Line)
    : (edit line).runLength (rest.map edit) = line.runLength rest := by
  induction rest generalizing line with
  | nil => rfl
  | cons next rest ih =>
      rw [List.map_cons, Line.runLength, Line.runLength, pads.number, pads.number, ih]

include pads readable in
theorem testReference_padded (path : String) (lines : List Line)
    : (testReference.claim { path, scheme } (lines.map edit)).map Block.plain
      = (testReference.claim { path, scheme } lines).map Block.plain := by
  have marked := Reference.markers_padded pads .testReference scheme.idPrefix
    readable.validatesKeyword lines
  simp only [testReference]
  split
  · exact Reference.withDefinitions_padded pads marked lines
  · exact marked

include pads readable in
/-- Every claimant proposes what it proposed. -/
theorem claim_padded {claimant : Claimant} (member : claimant ∈ Registry.standard.passes)
    (path : String) {lines : List Line} (inline : Line.AllInline lines)
    : (claimant.claim { path, scheme } (lines.map edit)).map Block.plain
      = (claimant.claim { path, scheme } lines).map Block.plain := by
  rw [Registry.passes, Registry.standard_claimants] at member
  simp only [List.cons_append, List.nil_append, List.mem_cons, List.not_mem_nil,
    or_false] at member
  rcases member with rfl | rfl | rfl | rfl | rfl | rfl
  · exact Block.sweep_plain_of_eq pads (fun line rest _ =>
      Comment.opens?_padded pads readable line rest)
  · exact Block.sweep_plain pads (fun line rest behind =>
      Requirement.opens?_padded pads readable line (fun other own =>
        inline other (behind.mem (List.mem_cons_of_mem line own))))
  · exact Block.sweep_plain_of_eq pads (fun line rest _ =>
      Journey.opens?_padded pads readable line rest)
  · exact Reference.markers_padded pads .codeReference scheme.idPrefix
      readable.implementsKeyword lines
  · exact testReference_padded pads readable path lines
  · exact Block.sweep_plain_of_eq pads (fun line rest _ => by rw [runLength_padded pads])

end Claim

/-- The blocks of a file stay where they are and hold what they held. -/
theorem Registry.blocks_padded (pads : PadsLines edit) (readable : scheme.Readable)
    (path : String) {lines : List Line} (inline : Line.AllInline lines)
    : (standard.blocks { path, scheme } (lines.map edit)).map Block.plain
      = (standard.blocks { path, scheme } lines).map Block.plain := by
  refine map_blocks_of_matches ?_ (fun _ => rfl) (fun _ => rfl)
  refine (Partition.matches_initial edit Block.plain Block.plain lines).foldl_pass pads.number
    Block.samePlaces_plain _ (fun claimant member free sub => ?_)
  exact Claim.claim_padded pads readable member path (fun line own => inline line (sub own))

theorem Suppression.scan_padded (pads : PadsLines edit) (lines : List Line)
    : scan (lines.map edit) = scan lines := by
  rw [scan, scan, List.filterMap_map]
  refine List.filterMap_congr (fun line _ => ?_)
  rw [Function.comp_apply, count?_padded (pads.padded line), pads.number]

end Traceability
