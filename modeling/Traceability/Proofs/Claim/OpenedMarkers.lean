import Traceability.Proofs.Claim.Contract
import Traceability.Proofs.Text.Padding
import Traceability.Proofs.Text.Returns
import Traceability.Proofs.Text.Rows

/-! Markers that open a comment.
The reader of comments compares keywords by the case of ASCII letters only, and the readers of
references by simple case folding. So a comment that opens with a marker is left to the readers
of references exactly if its keyword is spelled with the letters of the configured one.
-/

namespace Traceability

-----------------------------------------------------------------------------------------
-- Where the blocks of a sweep start
-----------------------------------------------------------------------------------------

namespace Block

variable {opens? : Line → List Line → Option (Nat × Content)} {lines rest : List Line}
  {line : Line}

theorem startLine_ofLines (first : Line) (further : List Line) (content : Content)
    : (ofLines first further content).startLine = first.number :=
  rfl

/-- The block that a line opens is one of the sweep, unless another block includes the line.
Witness: induction along the sweep, which skips a line only if a block takes it. -/
theorem ofLines_mem_sweep (contiguous : Contiguous opens?) (ascending : Line.Ascending lines)
    (behind : line :: rest <:+ lines) {count : Nat} {content : Content}
    (opened : opens? line rest = some (count, content))
    (apart
      : ∀ block ∈ sweep opens? lines, block.includes line.number = true →
          block.startLine = line.number)
    : ofLines line (rest.take count) content ∈ sweep opens? lines := by
  induction lines using sweep.induct opens? with
  | case1 => exact absurd (List.suffix_nil.mp behind) (List.cons_ne_nil _ _)
  | case2 first more passed ih =>
      rcases List.suffix_cons_iff.mp behind with same | later
      · obtain ⟨rfl, rfl⟩ := List.cons.inj same
        rw [passed] at opened
        cases opened
      · rw [sweep, passed] at apart ⊢
        exact ih (ascending.sublist (List.sublist_cons_self first more)) later apart
  | case3 first more taken held found ih =>
      have inRun := contiguous first more taken held found
      rcases List.suffix_cons_iff.mp behind with same | later
      · obtain ⟨rfl, rfl⟩ := List.cons.inj same
        rw [found] at opened
        cases opened
        rw [sweep, found]
        exact List.mem_cons_self
      · rw [sweep, found] at apart ⊢
        have above := List.rel_of_pairwise_cons ascending (later.mem List.mem_cons_self)
        -- The line is not among those that the first block takes.
        have outside : line ∉ more.take taken := by
          intro member
          have inside := (ofLines_includes_iff first more taken held inRun line.number).mpr
            (List.mem_map_of_mem (List.mem_cons_of_mem _ member))
          have starts := apart _ List.mem_cons_self inside
          rw [startLine_ofLines] at starts
          omega
        have next : line :: rest <:+ more.drop taken := by
          obtain ⟨skipped, whole⟩ := later
          rw [← List.take_append_drop taken more] at whole
          rcases List.append_eq_append_iff.mp whole with ⟨left, taken, own⟩ | ⟨left, -, own⟩
          · cases left with
            | nil => exact own ▸ List.suffix_rfl
            | cons other left =>
                obtain ⟨rfl, -⟩ := List.cons.inj own
                exact absurd (taken ▸ by simp) outside
          · exact own ▸ List.suffix_append left _
        refine List.mem_cons_of_mem _ (ih ?_ next (fun block member => ?_))
        · exact ascending.sublist
            ((List.drop_sublist taken more).trans (List.sublist_cons_self first more))
        · exact apart block (List.mem_cons_of_mem _ member)

/-- So a line that opens a block is in one, its own or that of an earlier line. -/
theorem exists_includes_of_opens (contiguous : Contiguous opens?) (ascending : Line.Ascending lines)
    (behind : line :: rest <:+ lines) {count : Nat} {content : Content}
    (opened : opens? line rest = some (count, content))
    : ∃ block ∈ sweep opens? lines, block.includes line.number = true := by
  by_contra outside
  push Not at outside
  have own := ofLines_mem_sweep contiguous ascending behind opened
    (fun block member inside => absurd inside (outside block member))
  have inRun := contiguous line rest count content opened
  apply outside _ own
  apply (ofLines_includes_iff line rest count content inRun line.number).mpr
  exact List.mem_map_of_mem List.mem_cons_self

/-- A block of a sweep that starts at a line was opened by it. -/
theorem opened_of_mem_sweep (ascending : Line.Ascending lines) (behind : line :: rest <:+ lines)
    {block : Block} (member : block ∈ sweep opens? lines) (starts : block.startLine = line.number)
    : ∃ count content,
        opens? line rest = some (count, content)
        ∧ block = ofLines line (rest.take count) content := by
  obtain ⟨first, further, count, content, own, opened, rfl⟩ := mem_sweep member
  rw [startLine_ofLines] at starts
  have above {a b : Line} {as bs : List Line} (suffix : b :: bs <:+ as)
      (whole : a :: as <:+ lines) : a.number < b.number :=
    List.rel_of_pairwise_cons (ascending.sublist whole.sublist) (suffix.mem List.mem_cons_self)
  have same : first :: further = line :: rest := by
    rcases List.suffix_or_suffix_of_suffix own behind with inside | inside
    · rcases List.suffix_cons_iff.mp inside with same | later
      · exact same
      · have := above later behind
        omega
    · rcases List.suffix_cons_iff.mp inside with same | later
      · exact same.symm
      · have := above later own
        omega
  obtain ⟨rfl, rfl⟩ := List.cons.inj same
  exact ⟨count, content, opened, rfl⟩

/-- A block of a sweep starts at a line exactly if the line opens one and is inside no other. -/
theorem exists_mem_sweep_iff (contiguous : Contiguous opens?) (ascending : Line.Ascending lines)
    (behind : line :: rest <:+ lines)
    : (∃ block ∈ sweep opens? lines, block.startLine = line.number)
      ↔ (opens? line rest).isSome = true
        ∧ ∀ block ∈ sweep opens? lines, block.includes line.number = true →
            block.startLine = line.number := by
  constructor
  · intro ⟨block, member, starts⟩
    obtain ⟨count, content, opened, -⟩ := opened_of_mem_sweep ascending behind member starts
    refine ⟨opened ▸ rfl, fun other memberToo inside => ?_⟩
    have own : block.includes line.number = true := by
      rw [includes_iff, starts]
      exact ⟨Nat.le_refl _, starts ▸ (whole_of_mem_sweep contiguous ascending member).nonempty⟩
    have ordered := sweep_pairwise_before contiguous ascending
    exact eq_of_includes ordered memberToo member inside own ▸ starts
  · intro ⟨opens, apart⟩
    obtain ⟨⟨count, content⟩, opened⟩ := Option.isSome_iff_exists.mp opens
    exact ⟨_, ofLines_mem_sweep contiguous ascending behind opened apart, rfl⟩

end Block

-----------------------------------------------------------------------------------------
-- The two readers of keywords
-----------------------------------------------------------------------------------------

open Text

/-- The keywords of markers. -/
def Scheme.markerKeywords (scheme : Scheme) : List String :=
  [scheme.implementsKeyword, scheme.validatesKeyword]

/-- Behind a sign stand a keyword and a colon, blanks aside, where letters are compared by their
images, and then the rest. -/
def Marker.Opens (image : Char → Char) (keyword afterSign rest : List Char) : Prop :=
  keyword.map image <+: (trimStart afterSign).map image
  ∧ strip? [':'] (trimStart ((trimStart afterSign).drop keyword.length)) = some rest

instance (image : Char → Char) (keyword afterSign rest : List Char)
    : Decidable (Marker.Opens image keyword afterSign rest) :=
  inferInstanceAs (Decidable (_ ∧ _))

/-- The reader of comments looks at the case of ASCII letters. -/
theorem Claim.Comment.startsMarker_iff {keyword : String} {afterSign : List Char}
    : startsMarker keyword (trimStart afterSign) = true
      ↔ ∃ rest, Marker.Opens Char.toLower keyword.toList afterSign rest := by
  rw [startsMarker, stripLetters?_eq_stripBy, stripBy]
  by_cases spelled : keyword.toList.map Char.toLower <+: (trimStart afterSign).map Char.toLower
  · rw [if_pos spelled]
    simp only [Marker.Opens, spelled, true_and, Option.isSome_iff_exists]
  · rw [if_neg spelled]
    simp only [Marker.Opens, spelled, false_and, exists_false, Bool.false_eq_true]

/-- Characters of one lower case have one simple folding. -/
theorem Text.simpleFold_toLower (c : Char) : simpleFold c.toLower = simpleFold c :=
  apply_toLower (by decide +kernel) c

/-- So a keyword that the reader of comments sees is one that the readers of references see. -/
theorem Marker.Opens.simpleFold_of_toLower {keyword afterSign rest : List Char}
    (marker : Opens Char.toLower keyword afterSign rest)
    : Opens simpleFold keyword afterSign rest := by
  refine ⟨?_, marker.2⟩
  have folded := marker.1.map simpleFold
  have image : simpleFold ∘ Char.toLower = simpleFold := funext Text.simpleFold_toLower
  rwa [List.map_map, List.map_map, image] at folded

theorem Claim.Comment.opensReference_iff {scheme : Scheme} {afterSign : List Char}
    : opensReference scheme afterSign = true
      ↔ ∃ keyword ∈ scheme.markerKeywords, ∃ rest,
          Marker.Opens Char.toLower keyword.toList afterSign rest := by
  rw [opensReference, Bool.or_eq_true, startsMarker_iff, startsMarker_iff]
  simp [Scheme.markerKeywords]

namespace Marker

theorem Opens.suffix {image : Char → Char} {keyword afterSign rest : List Char}
    (marker : Opens image keyword afterSign rest)
    : rest <:+ afterSign := by
  have colon := strip?_eq_some_iff.mp marker.2
  have behind : rest <:+ trimStart ((trimStart afterSign).drop keyword.length) :=
    colon ▸ List.suffix_cons ':' rest
  exact behind.trans ((List.dropWhile_suffix _).trans
    ((List.drop_suffix _ _).trans (List.dropWhile_suffix _)))

theorem stripSign?_openSign (afterSign : List Char)
    : stripSign? openingSigns (Claim.Comment.openSign ++ afterSign) = some afterSign := by
  rfl

/-- No sign starts with a blank. -/
theorem stripSign?_of_isBlank {c : Char} (blank : isBlank c = true) (s : List Char)
    : stripSign? openingSigns (c :: s) = none := by
  have solid : ∀ sign ∈ openingSigns, sign.head?.any (fun first => !isBlank first) = true := by
    decide
  refine List.findSome?_eq_none_iff.mpr (fun sign listed => ?_)
  have notBlank := solid sign listed
  cases sign with
  | nil => cases notBlank
  | cons first more =>
      rw [strip?, if_neg]
      rintro rfl
      simp [blank] at notBlank

/-- The readers of references find the marker of a comment that opens with one. -/
theorem rest?_of_opens {keyword afterSign rest s : List Char} (plain : '\n' ∉ s)
    (sign : strip? Claim.Comment.openSign (trimStart s) = some afterSign)
    (marker : Opens simpleFold keyword afterSign rest)
    : rest? keyword s = some rest := by
  obtain ⟨blanks, blank, split⟩ := exists_blanks_trimStart s
  rw [strip?_eq_some_iff.mp sign] at split
  have feed : rest.contains '\n' = false := by
    rw [← Bool.not_eq_true, List.contains_iff_mem]
    intro member
    refine plain (split ▸ List.mem_append_right _ (List.mem_append_right _ ?_))
    exact marker.suffix.mem member
  have here : restAt? keyword (Claim.Comment.openSign ++ afterSign) = some rest := by
    simp only [restAt?, stripSign?_openSign, stripFolded?_eq_stripBy, stripBy, if_pos marker.1,
      Option.bind_eq_bind, Option.bind_some, marker.2, feed, Bool.false_eq_true, if_false]
  rw [split]
  clear split
  induction blanks with
  | nil =>
      rw [List.nil_append]
      exact (Option.or_eq_some_iff.mpr (Or.inl here))
  | cons c blanks ih =>
      have none
          : restAt? keyword (c :: (blanks ++ (Claim.Comment.openSign ++ afterSign))) = none := by
        rw [restAt?, stripSign?_of_isBlank (blank c List.mem_cons_self)]
        rfl
      rw [List.cons_append, rest?, none, Option.none_or]
      exact ih (fun d member => blank d (List.mem_cons_of_mem c member))

/-- A comment that opens on a line continues no marker. -/
theorem continuation?_eq_none {afterSign s : List Char}
    (sign : strip? Claim.Comment.openSign (trimStart s) = some afterSign)
    : continuation? s = none := by
  rw [continuation?, strip?_eq_some_iff.mp sign]
  rfl

end Marker

namespace Claim

-----------------------------------------------------------------------------------------
-- Comments
-----------------------------------------------------------------------------------------

namespace Comment

/-- A comment is closed behind its opening sign, or on a later line of the same run. -/
def IsClosed (line : Line) (rest : List Line) (afterSign : List Char) : Prop :=
  contains closeSign afterSign = true
  ∨ (line.upTo? closes (fun _ => false) rest).isSome = true

theorem isSome_opens?_iff {scheme : Scheme} {line : Line} {rest : List Line}
    {afterSign : List Char} (sign : strip? openSign (trimStart line.text.toList) = some afterSign)
    : (opens? scheme line rest).isSome = true
      ↔ (∀ keyword ∈ scheme.markerKeywords, ∀ tail,
          ¬ Marker.Opens Char.toLower keyword.toList afterSign tail)
        ∧ IsClosed line rest afterSign := by
  have spelled
      : opensReference scheme afterSign = true
        ↔ ¬ ∀ keyword ∈ scheme.markerKeywords, ∀ tail,
            ¬ Marker.Opens Char.toLower keyword.toList afterSign tail := by
    rw [opensReference_iff]
    push Not
    rfl
  have left := not_iff_comm.mp spelled.symm
  rw [opens?, afterOpen?, sign, ← left]
  by_cases marked : opensReference scheme afterSign = true
  · simp [marked]
  · rw [and_iff_right marked, IsClosed]
    by_cases closed : contains closeSign afterSign = true
    · simp [marked, closed]
    · cases line.upTo? closes (fun _ => false) rest <;> simp [marked, closed]

end Comment

-----------------------------------------------------------------------------------------
-- References
-----------------------------------------------------------------------------------------

namespace Reference

theorem marked?_of_named {idPrefix keyword : String} {line : Line} {tail : List Char}
    (marker : Marker.rest? keyword.toList line.text.toList = some tail)
    (names : named idPrefix tail ≠ []) (rest : List Line)
    : marked? idPrefix keyword line rest
      = some (0, targetsOn line.number (named idPrefix tail)) := by
  have words : Marker.words tail ≠ [] := fun none => names (by rw [named, none, List.filter_nil])
  simp only [marked?, marker, Option.bind_eq_bind, Option.bind_some]
  rw [if_neg words]
  exact if_neg names

/-- A line that continues no marker is only in the block of its own marker. -/
theorem opener_of_includes {make : Traceability.Reference → Content}
    {idPrefix keyword : String} {lines free : List Line} (ascending : Line.Ascending lines)
    (sub : free.Sublist lines) {line : Line} (member : line ∈ lines)
    (uncontinued : continuation? idPrefix line = none) {block : Block}
    (own : block ∈ markers make idPrefix keyword free) (inside : block.includes line.number = true)
    : block.startLine = line.number
      ∧ (Marker.rest? keyword.toList line.text.toList).isSome = true
      ∧ ∃ reference, block.content = make reference := by
  obtain ⟨first, rest, further, targets, behind, marked, rfl⟩ := mem_markers own
  have inRun : further ≤ first.runLength rest :=
    contiguous_marked make idPrefix keyword first rest further _
      (Option.map_eq_some_iff.mpr ⟨_, marked, rfl⟩)
  have among : first :: rest.take further ⊆ lines :=
    ((((List.take_sublist further rest).cons_cons first).trans behind.sublist).trans sub).subset
  have here := (ascending.number_mem_iff among member).mp
    ((Block.ofLines_includes_iff first rest further _ inRun _).mp inside)
  obtain ⟨tail, found, taken⟩ := marked?_cases marked
  rcases List.mem_cons.mp here with rfl | later
  · exact ⟨rfl, found ▸ rfl, _, rfl⟩
  · rcases taken with ⟨rfl, -⟩ | ⟨rfl, -⟩
    · have continued := List.mem_map_of_mem (f := continuation? idPrefix) later
      rw [map_continuation?_take, uncontinued] at continued
      obtain ⟨targets, -, none⟩ := List.mem_map.mp continued
      cases none
    · rw [List.take_zero] at later
      cases later

theorem continuation?_eq_none {idPrefix : String} {line : Line} {afterSign : List Char}
    (sign : strip? Comment.openSign (trimStart line.text.toList) = some afterSign)
    : continuation? idPrefix line = none := by
  rw [continuation?, Marker.continuation?_eq_none sign]
  rfl

/-- A marker that opens a comment and names targets makes a block of its line. -/
theorem ofLines_mem_markers {make : Traceability.Reference → Content} {idPrefix keyword : String}
    {lines : List Line} (ascending : Line.Ascending lines) {line : Line} (member : line ∈ lines)
    (plain : '\n' ∉ line.text.toList) {afterSign tail : List Char}
    (sign : strip? Comment.openSign (trimStart line.text.toList) = some afterSign)
    (marker : Marker.Opens simpleFold keyword.toList afterSign tail)
    (names : named idPrefix tail ≠ [])
    : Block.ofLines line [] (make ⟨targetsOn line.number (named idPrefix tail), none⟩)
      ∈ markers make idPrefix keyword lines := by
  obtain ⟨skipped, rest, rfl⟩ := List.append_of_mem member
  have marked := marked?_of_named (Marker.rest?_of_opens plain sign marker) names rest
  refine Block.ofLines_mem_sweep (contiguous_marked make idPrefix keyword) ascending
    (List.suffix_append skipped _) (Option.map_eq_some_iff.mpr ⟨_, marked, rfl⟩)
    (fun block own inside => ?_)
  have uncontinued : continuation? idPrefix line = none := continuation?_eq_none sign
  exact (opener_of_includes ascending (.refl _) member uncontinued own inside).1

/-- The reader of test references keeps the blocks of all markers. -/
theorem markers_subset_testReference {context : ClaimContext} {lines : List Line}
    : markers .testReference context.scheme.idPrefix context.scheme.validatesKeyword lines
      ⊆ testReference.claim context lines := by
  intro block marked
  simp only [testReference]
  split
  · rw [withDefinitions, List.mem_mergeSort, List.mem_append]
    exact Or.inl marked
  · exact marked

end Reference

end Claim

-----------------------------------------------------------------------------------------
-- Lines that are left to the readers of references
-----------------------------------------------------------------------------------------

def Content.isComment : Content → Bool
  | .comment _ _ => true
  | _ => false

/-- Whether the readers of references were shown the lines of a block with this content. -/
def Content.isLeftToReferences : Content → Bool
  | .codeReference _ => true
  | .testReference _ => true
  | .remainder => true
  | _ => false

/-- The readers of references were shown a line. -/
def Line.LeftToReferences (line : Line) (blocks : List Block) : Prop :=
  ∀ block ∈ blocks, block.includes line.number = true → block.content.isLeftToReferences = true

namespace Registry

variable {context : ClaimContext} {lines : List Line}

/-- The partition when the turn of a claimant comes. -/
def before (context : ClaimContext) (lines : List Line) (earlier : List Claimant) : Partition :=
  earlier.foldl (Partition.pass context) (Partition.initial lines)

/-- What a standard claimant proposes when its turn comes is a block of the file. -/
theorem mem_blocks_of_claim (ascending : Line.Ascending lines) {earlier later : List Claimant}
    {claimant : Claimant} (turn : standard.passes = earlier ++ claimant :: later) {block : Block}
    (own : block ∈ claimant.claim context (before context lines earlier).free)
    : block ∈ standard.blocks context lines := by
  obtain ⟨offered, rest, claims⟩ := List.append_of_mem own
  rw [(standard.blocks_perm context lines).mem_iff]
  refine (mem_foldl_pass_iff ascending context standard.passes block).mpr ?_
  have proposed : Proposed context lines standard.passes _ block :=
    ⟨earlier, claimant, later, offered, rest, turn, claims, rfl⟩
  exact ⟨_, proposed,
    fits_of_proposed ascending (fun _ known => Claim.keepsContract_of_mem known) proposed⟩

/-- A block that was kept when the turn of a claimant comes is one of the file, and an earlier
claimant made it of lines that were free. -/
theorem mem_blocks_of_mem_before {earlier later : List Claimant}
    (turn : standard.passes = earlier ++ later) {block : Block}
    (kept : block ∈ (before context lines earlier).blocks)
    : block ∈ standard.blocks context lines
      ∧ ∃ claimant ∈ earlier, ∃ free,
          free.Sublist lines ∧ block ∈ claimant.claim context free := by
  constructor
  · rw [(standard.blocks_perm context lines).mem_iff, final, turn, List.foldl_append]
    exact mem_foldl_pass_of_mem context later kept
  · rcases mem_foldl_pass kept with none | ⟨first, claimant, more, offered, rest, split,
      proposed, -⟩
    · cases none
    · refine ⟨claimant, split ▸ by simp, (before context lines first).free,
        free_foldl_pass_sublist context _ first, ?_⟩
      rw [before, proposed]
      simp

/-- A line that is in no block of earlier claimants is free. -/
theorem mem_free_before (ascending : Line.Ascending lines) {earlier : List Claimant} {line : Line}
    (member : line ∈ lines)
    (apart
      : ∀ block ∈ (before context lines earlier).blocks, ¬ block.includes line.number = true)
    : line ∈ (before context lines earlier).free := by
  rw [before, ((Partition.valid_initial lines).foldl_pass ascending context earlier).free]
  exact mem_unclaimed_iff.mpr ⟨member, apart⟩

theorem ascending_before (ascending : Line.Ascending lines) (earlier : List Claimant)
    : Line.Ascending (before context lines earlier).free :=
  ((Partition.valid_initial lines).foldl_pass ascending context earlier).ascending ascending

/-- The claimants that run before the readers of references. -/
def headed : List Claimant :=
  [Claim.comment, Claim.requirement, Claim.journey]

theorem passes_eq_codeTurn
    : standard.passes
      = headed ++ Claim.codeReference :: [Claim.testReference, Claim.remainder] :=
  rfl

theorem passes_eq_testTurn
    : standard.passes
      = (headed ++ [Claim.codeReference]) ++ Claim.testReference :: [Claim.remainder] :=
  rfl

/-- Such claimants read no references. -/
theorem not_isLeftToReferences {claimant : Claimant} (early : claimant ∈ headed)
    {free : List Line} {block : Block} (own : block ∈ claimant.claim context free)
    : ¬ block.content.isLeftToReferences = true := by
  simp only [headed, List.mem_cons, List.not_mem_nil, or_false] at early
  rw [Bool.not_eq_true]
  rcases early with rfl | rfl | rfl
  · obtain ⟨line, rest, count, content, -, opened, rfl⟩ := Block.mem_sweep own
    obtain ⟨text, decorative, rfl⟩ := Claim.Comment.content_of_opens? opened
    rfl
  · obtain ⟨line, rest, count, content, -, opened, rfl⟩ := Block.mem_sweep own
    obtain ⟨heading, inner, last, -, -, -, rfl⟩ := Claim.Requirement.of_opens? opened
    rfl
  · obtain ⟨line, rest, count, content, -, opened, rfl⟩ := Block.mem_sweep own
    obtain ⟨heading, inner, -, rfl⟩ := Claim.Journey.of_opens? opened
    rfl

section Markers

variable {line : Line} {afterSign tail : List Char}

/-- The reader of code references makes a block of a marker that it may see. -/
theorem exists_codeReference (ascending : Line.Ascending lines) (member : line ∈ lines)
    (plain : '\n' ∉ line.text.toList)
    (sign : strip? Claim.Comment.openSign (trimStart line.text.toList) = some afterSign)
    (marker : Marker.Opens simpleFold context.scheme.implementsKeyword.toList afterSign tail)
    (names : Claim.Reference.named context.scheme.idPrefix tail ≠ [])
    (left : line.LeftToReferences (standard.blocks context lines))
    : ∃ block ∈ standard.blocks context lines,
        block.startLine = line.number
        ∧ block.content
          = .codeReference
            ⟨Claim.Reference.targetsOn line.number
              (Claim.Reference.named context.scheme.idPrefix tail), none⟩ := by
  have free : line ∈ (before context lines headed).free := by
    refine mem_free_before ascending member (fun block kept inside => ?_)
    obtain ⟨own, claimant, early, _, -, claimed⟩ :=
      mem_blocks_of_mem_before passes_eq_codeTurn kept
    exact not_isLeftToReferences early claimed (left block own inside)
  have claimed := @Claim.Reference.ofLines_mem_markers .codeReference _ _ _
    (ascending_before ascending headed) _ free plain _ _ sign marker names
  exact ⟨_, mem_blocks_of_claim ascending passes_eq_codeTurn claimed, rfl, rfl⟩

/-- The reader of test references makes a block of a marker that it may see, unless the line is
taken by the reader of code references, which finds a marker of its own there. -/
theorem exists_testReference (ascending : Line.Ascending lines) (member : line ∈ lines)
    (plain : '\n' ∉ line.text.toList)
    (sign : strip? Claim.Comment.openSign (trimStart line.text.toList) = some afterSign)
    (marker : Marker.Opens simpleFold context.scheme.validatesKeyword.toList afterSign tail)
    (names : Claim.Reference.named context.scheme.idPrefix tail ≠ [])
    (left : line.LeftToReferences (standard.blocks context lines))
    : ∃ block ∈ standard.blocks context lines,
        block.startLine = line.number
        ∧ (block.content
            = .testReference
              ⟨Claim.Reference.targetsOn line.number
                (Claim.Reference.named context.scheme.idPrefix tail), none⟩
          ∨ (Marker.rest? context.scheme.implementsKeyword.toList line.text.toList).isSome = true
            ∧ ∃ reference, block.content = .codeReference reference) := by
  by_cases taken
      : ∃ block ∈ (before context lines (headed ++ [Claim.codeReference])).blocks,
          block.includes line.number = true
  · obtain ⟨block, kept, inside⟩ := taken
    obtain ⟨own, claimant, early, free, sub, claimed⟩ :=
      mem_blocks_of_mem_before passes_eq_testTurn kept
    rcases List.mem_append.mp early with headed | code
    · exact absurd (left block own inside) (not_isLeftToReferences headed claimed)
    · obtain rfl := List.mem_singleton.mp code
      obtain ⟨starts, found, read⟩ := Claim.Reference.opener_of_includes ascending sub member
        (Claim.Reference.continuation?_eq_none sign) claimed inside
      exact ⟨block, own, starts, Or.inr ⟨found, read⟩⟩
  · push Not at taken
    have free := mem_free_before ascending member (fun block kept => taken block kept)
    have marked := @Claim.Reference.ofLines_mem_markers .testReference _ _ _
      (ascending_before ascending _) _ free plain _ _ sign marker names
    have claimed := Claim.Reference.markers_subset_testReference marked
    exact ⟨_, mem_blocks_of_claim ascending passes_eq_testTurn claimed, rfl, Or.inl rfl⟩

end Markers

/-- The comments of a file are all that the reader of comments makes of its lines. -/
theorem mem_blocks_isComment_iff (ascending : Line.Ascending lines) (block : Block)
    : block ∈ standard.blocks context lines ∧ block.content.isComment = true
      ↔ block ∈ Claim.comment.claim context lines := by
  constructor
  · intro ⟨own, commented⟩
    rcases mem_foldl_pass ((standard.blocks_perm context lines).mem_iff.mp own) with none |
      ⟨earlier, claimant, later, offered, rest, split, proposed, -⟩
    · cases none
    · have claimed : block ∈ claimant.claim context (before context lines earlier).free :=
        proposed ▸ List.mem_append_right _ List.mem_cons_self
      have sort := Claim.sort_of_mem_claim (split ▸ by simp) claimed
      cases content : block.content <;> rw [content] at commented <;> cases commented
      simp only [content] at sort
      subst sort
      cases earlier with
      | nil => exact claimed
      | cons first earlier =>
          -- The reader of comments runs once, as the first.
          have again : Claim.comment ∈ standard.passes.tail := by rw [split]; simp
          have names := List.mem_map_of_mem (f := Claimant.name) again
          exact absurd names (by decide)
  · intro claimed
    constructor
    · exact @mem_blocks_of_claim _ _ ascending [] _ _ rfl _ claimed
    · obtain ⟨line, rest, count, content, -, opened, rfl⟩ := Block.mem_sweep claimed
      obtain ⟨text, decorative, rfl⟩ := Claim.Comment.content_of_opens? opened
      rfl

end Registry

-----------------------------------------------------------------------------------------
-- Markers of a file
-----------------------------------------------------------------------------------------

def ParsedFile.comments (file : ParsedFile) : List Block :=
  file.blocks.filter (fun block => block.content.isComment)

/-- How a file reads a line on which a comment opens with a marker, whose keyword is compared by
simple case folding. -/
structure ParsedFile.ReadsMarker (scheme : Scheme) (file : ParsedFile) (line : Line)
    (rest : List Line) (afterSign : List Char) (keyword : String) (tail : List Char)
    : Prop where
  /-- What the reader of comments leaves, the readers of references look for. -/
  folds
    : ∀ other tail, Marker.Opens Char.toLower other afterSign tail →
        Marker.Opens simpleFold other afterSign tail
  /-- A closed comment is left exactly if one of the keywords is spelled with its own letters, up to
  the case of ASCII letters. -/
  comment_iff
    : (∃ block ∈ file.comments, block.startLine = line.number)
      ↔ (∀ other ∈ scheme.markerKeywords, ∀ tail,
          ¬ Marker.Opens Char.toLower other.toList afterSign tail)
        ∧ Claim.Comment.IsClosed line rest afterSign
        ∧ ∀ block ∈ file.comments, block.includes line.number = true →
            block.startLine = line.number
  /-- A marker that is left and names targets is a reference from code, -/
  codeReference
    : keyword = scheme.implementsKeyword →
      Claim.Reference.named scheme.idPrefix tail ≠ [] →
      line.LeftToReferences file.blocks →
        ∃ block ∈ file.blocks,
          block.startLine = line.number
          ∧ block.content
            = .codeReference
              ⟨Claim.Reference.targetsOn line.number
                (Claim.Reference.named scheme.idPrefix tail), none⟩
  /-- or one from a test, unless the line holds a marker of code as well. -/
  testReference
    : keyword = scheme.validatesKeyword →
      Claim.Reference.named scheme.idPrefix tail ≠ [] →
      line.LeftToReferences file.blocks →
        ∃ block ∈ file.blocks,
          block.startLine = line.number
          ∧ (block.content
              = .testReference
                ⟨Claim.Reference.targetsOn line.number
                  (Claim.Reference.named scheme.idPrefix tail), none⟩
            ∨ (Marker.rest? scheme.implementsKeyword.toList line.text.toList).isSome = true
              ∧ ∃ reference, block.content = .codeReference reference)

namespace Registry

/-- A comment that opens with a marker is left to the readers of references exactly if a keyword is
spelled with its own letters. -/
theorem parseFile_readsMarker (scheme : Scheme) (path text : String) {line : Line}
    {rest : List Line} (behind : line :: rest <:+ Line.ofText text) {afterSign : List Char}
    (sign : strip? Claim.Comment.openSign (trimStart line.text.toList) = some afterSign)
    {keyword : String} {tail : List Char}
    (marker : Marker.Opens simpleFold keyword.toList afterSign tail)
    : (standard.parseFile scheme path text).ReadsMarker scheme line rest afterSign keyword
        tail := by
  have ascending := Line.ascending_ofText text
  have member : line ∈ Line.ofText text := behind.mem List.mem_cons_self
  have plain : '\n' ∉ line.text.toList :=
    feed_not_mem_of_mem_lines (List.mem_of_getElem? (Line.getElem?_of_mem_numbered member).2)
  have comments (block : Block)
      : block ∈ (standard.parseFile scheme path text).comments
        ↔ block ∈ Block.sweep (Claim.Comment.opens? scheme) (Line.ofText text) :=
    List.mem_filter.trans (mem_blocks_isComment_iff ascending block)
  refine ⟨fun other tail => Marker.Opens.simpleFold_of_toLower, ?_, ?_, ?_⟩
  · have starts := Block.exists_mem_sweep_iff (Claim.Comment.contiguous scheme) ascending behind
    rw [Claim.Comment.isSome_opens?_iff sign, and_assoc] at starts
    simp only [comments]
    exact starts
  · rintro rfl names left
    exact exists_codeReference ascending member plain sign marker names left
  · rintro rfl names left
    exact exists_testReference ascending member plain sign marker names left

/-- A comment that opens with a marker in capital letters. -/
def capitalMarker : String :=
  "<!-- IMPLEMENTS: REQ-p00001 -->"

/-- A comment that opens with a marker whose last letter is the long s, which folds to an s. -/
def longMarker : String :=
  "<!-- Implement\u017f: REQ-p00001 -->"

theorem parseFile_readsMarker_capital_long
    : let read := standard.parseFile Config.defaultScheme "login.rs"
      ({} : Config).compile = .ok Config.defaultScheme
      ∧ (¬ ∃ block ∈ (read capitalMarker).comments, block.startLine = 1)
      ∧ (∃ block ∈ (read capitalMarker).blocks,
          block.startLine = 1 ∧ block.content = .codeReference ⟨[⟨"REQ-p00001", 1⟩], none⟩)
      ∧ ∃ block ∈ (read longMarker).comments, block.startLine = 1 := by
  have capital := @parseFile_readsMarker Config.defaultScheme "login.rs" capitalMarker
    ⟨1, capitalMarker⟩ [] (by decide +kernel) " IMPLEMENTS: REQ-p00001 -->".toList
    (by decide +kernel) "Implements" " REQ-p00001 -->".toList (by decide +kernel)
  have long := @parseFile_readsMarker Config.defaultScheme "login.rs" longMarker
    ⟨1, longMarker⟩ [] (by decide +kernel) " Implement\u017f: REQ-p00001 -->".toList
    (by decide +kernel) "Implements" " REQ-p00001 -->".toList (by decide +kernel)
  have left
      : Line.LeftToReferences ⟨1, capitalMarker⟩
          (standard.parseFile Config.defaultScheme "login.rs" capitalMarker).blocks := by
    unfold Line.LeftToReferences
    decide +kernel
  have unspelled
      : ∀ keyword ∈ Config.defaultScheme.markerKeywords,
          ¬ keyword.toList.map Char.toLower
            <+: (trimStart " Implement\u017f: REQ-p00001 -->".toList).map Char.toLower := by
    decide +kernel
  refine ⟨Config.compile_default, fun commented => ?_, ?_, ?_⟩
  · exact (capital.comment_iff.mp commented).1 "Implements" (by decide +kernel)
      " REQ-p00001 -->".toList (by decide +kernel)
  · exact capital.codeReference (by decide +kernel) (by decide +kernel) left
  · exact long.comment_iff.mpr
      ⟨fun keyword listed tail spelled => unspelled keyword listed spelled.1,
        Or.inl (by decide +kernel), by decide +kernel⟩

/-- So a comment may start on a line whose marker the readers of references would have found. -/
theorem not_startLine_ne_longMarker
    : ¬ ∀ (config : Config) (scheme : Scheme), config.compile = .ok scheme →
        ∀ (path text : String) (line : Line), line ∈ Line.ofText text →
        ∀ (afterSign : List Char),
          strip? Claim.Comment.openSign (trimStart line.text.toList) = some afterSign →
        ∀ keyword ∈ scheme.markerKeywords, ∀ (tail : List Char),
          Marker.Opens simpleFold keyword.toList afterSign tail →
        ∀ block ∈ (standard.parseFile scheme path text).comments,
          block.startLine ≠ line.number := by
  intro all
  have apart := all {} Config.defaultScheme Config.compile_default "login.rs" longMarker
    ⟨1, longMarker⟩ (by decide +kernel) " Implement\u017f: REQ-p00001 -->".toList
    (by decide +kernel) "Implements" (by decide +kernel) " REQ-p00001 -->".toList
    (by decide +kernel)
  exact absurd apart (by decide +kernel)

end Registry

end Traceability
