import Traceability.Proofs.Claim.OpenedMarkers
import Traceability.Proofs.Line.Marker

/-! Which lines markers take, and with which targets.
A marker that names targets is a block of its line. A marker without any word takes the lines behind
it that hold nothing but targets, as long as their numbers go on, and is a block only if there are
any. No other line is taken, and the targets of a block are the words on its lines.
-/

namespace Traceability.Claim.Reference

open Text

variable {idPrefix keyword : String} {line : Line} {rest : List Line}

-----------------------------------------------------------------------------------------
-- Lines with markers and lines that continue them
-----------------------------------------------------------------------------------------

/-- These are the words behind the first marker of a line. -/
def Marks (keyword : String) (line : Line) (words : List (List Char)) : Prop :=
  ∃ rest, Marker.Finds keyword.toList line.text.toList rest ∧ Marker.Words rest words

/-- These are the words of a line that holds nothing but targets behind a comment sign. -/
def ContinuesWith (idPrefix : String) (line : Line) (words : List (List Char)) : Prop :=
  ∃ rest,
    Marker.Continues line.text.toList rest
    ∧ Marker.Words rest words
    ∧ words ≠ []
    ∧ ∀ word ∈ words, Marker.isTarget idPrefix word = true

/-- The next line has the next number and continues a marker. -/
def NextContinues (idPrefix : String) (line : Line) (rest : List Line) : Prop :=
  ∃ next more words,
    rest = next :: more ∧ next.number = line.number + 1 ∧ ContinuesWith idPrefix next words

/-- The lines behind a marker that continue it with these words: their numbers go on from that of
the marker, and the line behind them, if its number goes on, does not continue it. -/
structure ContinuedBy (idPrefix : String) (line : Line) (inner more : List Line)
    (words : List (List (List Char)))
    : Prop where
  consecutive : Line.Consecutive (line :: inner)
  continues : List.Forall₂ (ContinuesWith idPrefix) inner words
  maximal
    : ∀ next others further,
        more = next :: others → Line.Consecutive (line :: (inner ++ [next])) →
          ¬ ContinuesWith idPrefix next further

/-- The targets on lines with these words, each with the number of its line. -/
def targetsBelow (inner : List Line) (words : List (List (List Char))) : List Target :=
  (inner.zip words).flatMap (fun (line, words) => targetsOn line.number words)

/-- A keyword as it is configured: it does not start with a blank. -/
def IsKeyword (keyword : String) : Prop :=
  ∃ first ∈ keyword.toList.head?, isBlank first = false

theorem rest?_eq_some_iff (isKeyword : IsKeyword keyword) {s rest : List Char}
    : Marker.rest? keyword.toList s = some rest ↔ Marker.Finds keyword.toList s rest := by
  obtain ⟨first, head, solid⟩ := isKeyword
  obtain ⟨letters, written⟩ := List.head?_eq_some_iff.mp head
  rw [written]
  exact Marker.rest?_eq_some_iff solid

/-- A marker has its words once. -/
theorem marks_iff (isKeyword : IsKeyword keyword) {words : List (List Char)}
    : Marks keyword line words
      ↔ (Marker.rest? keyword.toList line.text.toList).map Marker.words = some words := by
  simp only [Marks, ← rest?_eq_some_iff isKeyword, ← Marker.words_eq_iff, Option.map_eq_some_iff]

theorem continuation?_eq_some_iff {targets : List Target}
    : continuation? idPrefix line = some targets
      ↔ ∃ words, ContinuesWith idPrefix line words ∧ targets = targetsOn line.number words := by
  simp only [continuation?, ContinuesWith, Option.bind_eq_bind, Option.bind_eq_some_iff,
    Marker.continuation?_eq_some_iff, ← Marker.words_eq_iff, Option.ite_none_right_eq_some,
    Option.some.injEq, List.all_eq_true]
  constructor
  · rintro ⟨rest, continues, ⟨some, all⟩, rfl⟩
    exact ⟨_, ⟨rest, continues, rfl, some, all⟩, rfl⟩
  · rintro ⟨words, ⟨rest, continues, rfl, some, all⟩, rfl⟩
    exact ⟨rest, continues, ⟨some, all⟩, rfl⟩

/-- What the reader finds behind a marker is what continues it. Witness: induction along the lines;
the reader stops at a gap and at a line that does not continue the marker. -/
theorem exists_continuedBy (idPrefix : String) (line : Line) (rest : List Line)
    : ∃ inner more words,
        rest = inner ++ more
        ∧ ContinuedBy idPrefix line inner more words
        ∧ (continuations idPrefix line rest).length = inner.length
        ∧ (continuations idPrefix line rest).flatten = targetsBelow inner words := by
  induction rest generalizing line with
  | nil => exact ⟨[], [], [], rfl, ⟨.singleton line, .nil, nofun⟩, rfl, rfl⟩
  | cons next rest ih =>
      rw [continuations]
      split
      · next gap =>
          refine ⟨[], next :: rest, [], rfl, ⟨.singleton line, .nil, ?_⟩, rfl, rfl⟩
          rintro _ _ _ ⟨⟩ consecutive
          exact absurd (List.isChain_cons_cons.mp consecutive).1 gap
      · next follows =>
          rw [ne_eq, Decidable.not_not] at follows
          cases read : continuation? idPrefix next with
          | none =>
              refine ⟨[], next :: rest, [], rfl, ⟨.singleton line, .nil, ?_⟩, rfl, rfl⟩
              rintro _ _ words ⟨⟩ - continues
              rw [continuation?_eq_some_iff.mpr ⟨words, continues, rfl⟩] at read
              cases read
          | some targets =>
              obtain ⟨words, own, rfl⟩ := continuation?_eq_some_iff.mp read
              obtain ⟨inner, more, further, rfl, continued, length, all⟩ := ih next
              refine ⟨next :: inner, more, words :: further, rfl, ?_, ?_, ?_⟩
              · exact {
                  consecutive := .cons_cons follows continued.consecutive
                  continues := .cons own continued.continues
                  maximal := fun other others words split consecutive =>
                    continued.maximal other others words split
                      (List.isChain_cons_cons.mp consecutive).2 }
              · simp [length]
              · rw [List.flatten_cons, all]
                rfl

-----------------------------------------------------------------------------------------
-- Blocks of markers
-----------------------------------------------------------------------------------------

section Blocks

variable (make : Traceability.Reference → Content) (idPrefix keyword : String)

/-- A block of a marker that names targets: it takes the line of the marker only, and its targets
are those words that are some. -/
def IsNamed (line : Line) (block : Block) : Prop :=
  ∃ words,
    Marks keyword line words
    ∧ (∃ word ∈ words, Marker.isTarget idPrefix word = true)
    ∧ block
      = Block.ofLines line []
          (make ⟨targetsOn line.number (words.filter (Marker.isTarget idPrefix)), none⟩)

/-- A block of a marker without any word: it takes the lines that continue the marker, of which
there are some, and its targets are the words on them. -/
def IsContinued (line : Line) (inner more : List Line) (block : Block) : Prop :=
  Marks keyword line []
  ∧ inner ≠ []
  ∧ ∃ words,
      ContinuedBy idPrefix line inner more words
      ∧ block = Block.ofLines line inner (make ⟨targetsBelow inner words, none⟩)

/-- The block of a marker and the lines behind it that it takes. -/
def Takes (line : Line) (inner more : List Line) (block : Block) : Prop :=
  inner = [] ∧ IsNamed make idPrefix keyword line block
  ∨ IsContinued make idPrefix keyword line inner more block

/-- The blocks are those of the markers among the lines, in order. A block covers the line of its
marker and the lines that it takes, and no other. A line with a marker that names targets is in one
block. A marker without any word that is not inside the block of an earlier one starts a block
exactly if the next line continues it. -/
structure AreMarkers (lines : List Line) (blocks : List Block) : Prop where
  ordered : blocks.Pairwise (fun a b => a.endLine < b.startLine)
  taken
    : ∀ block ∈ blocks, ∃ line inner more,
        line :: (inner ++ more) <:+ lines
        ∧ Takes make idPrefix keyword line inner more block
        ∧ ∀ other ∈ lines, block.includes other.number = true ↔ other ∈ line :: inner
  named
    : ∀ line ∈ lines, ∀ words,
        Marks keyword line words → (∃ word ∈ words, Marker.isTarget idPrefix word = true) →
          ∃! block, block ∈ blocks ∧ block.includes line.number = true
  empty
    : ∀ line rest,
        line :: rest <:+ lines → Marks keyword line [] →
        (∀ block ∈ blocks, block.includes line.number = true → block.startLine = line.number) →
          ((∃ block ∈ blocks, block.startLine = line.number) ↔ NextContinues idPrefix line rest)

end Blocks

/-- A marker is read exactly if it names targets or is continued. -/
theorem marked?_eq_some_iff (isKeyword : IsKeyword keyword) {count : Nat} {targets : List Target}
    : marked? idPrefix keyword line rest = some (count, targets)
      ↔ ∃ words,
          Marks keyword line words
          ∧ (words = []
              ∧ continuations idPrefix line rest ≠ []
              ∧ count = (continuations idPrefix line rest).length
              ∧ targets = (continuations idPrefix line rest).flatten
            ∨ (∃ word ∈ words, Marker.isTarget idPrefix word = true)
              ∧ count = 0
              ∧ targets = targetsOn line.number (words.filter (Marker.isTarget idPrefix))) := by
  simp only [marks_iff isKeyword]
  cases found : Marker.rest? keyword.toList line.text.toList with
  | none => simp [marked?, found]
  | some tail =>
      simp only [marked?, found, Option.bind_eq_bind, Option.bind_some, Option.map_some,
        Option.some.injEq, exists_eq_left']
      by_cases empty : Marker.words tail = []
      · simp [empty, eq_comm (a := count), eq_comm (a := targets)]
      · have named : (Marker.words tail).filter (Marker.isTarget idPrefix) = []
            ↔ ¬ ∃ word ∈ Marker.words tail, Marker.isTarget idPrefix word = true := by
          simp [List.filter_eq_nil_iff]
        simp [empty, named, eq_comm (a := count), eq_comm (a := targets)]

/-- What a marker takes when it is read. -/
theorem exists_takes_of_marked? (make : Traceability.Reference → Content)
    (isKeyword : IsKeyword keyword) {count : Nat} {targets : List Target}
    (marked : marked? idPrefix keyword line rest = some (count, targets))
    : ∃ inner more,
        rest = inner ++ more
        ∧ count = inner.length
        ∧ Takes make idPrefix keyword line inner more
            (Block.ofLines line inner (make ⟨targets, none⟩)) := by
  obtain ⟨words, marks, ⟨rfl, some, rfl, rfl⟩ | ⟨names, rfl, rfl⟩⟩ :=
    (marked?_eq_some_iff isKeyword).mp marked
  · obtain ⟨inner, more, words, split, continued, length, all⟩ :=
      exists_continuedBy idPrefix line rest
    refine ⟨inner, more, split, length, Or.inr ⟨marks, ?_, words, continued, by rw [all]⟩⟩
    rintro rfl
    exact some (List.eq_nil_of_length_eq_zero length)
  · exact ⟨[], rest, rfl, rfl, Or.inl ⟨rfl, words, marks, names, rfl⟩⟩

theorem continuations_ne_nil_iff
    : continuations idPrefix line rest ≠ [] ↔ NextContinues idPrefix line rest := by
  cases rest with
  | nil => simp [continuations, NextContinues]
  | cons next more =>
      rw [continuations]
      constructor
      · intro some
        split at some
        · cases some rfl
        · next follows =>
            cases read : continuation? idPrefix next with
            | none => rw [read] at some; cases some rfl
            | some targets =>
                obtain ⟨words, continues, -⟩ := continuation?_eq_some_iff.mp read
                exact ⟨next, more, words, rfl, not_not.mp follows, continues⟩
      · rintro ⟨_, _, words, ⟨⟩, follows, continues⟩
        rw [if_neg (not_not_intro follows),
          continuation?_eq_some_iff.mpr ⟨words, continues, rfl⟩]
        exact List.cons_ne_nil _ _

/-- A marker without any word is read exactly if the next line continues it. -/
theorem isSome_marked?_iff (isKeyword : IsKeyword keyword) (empty : Marks keyword line [])
    : (marked? idPrefix keyword line rest).isSome = true ↔ NextContinues idPrefix line rest := by
  rw [← continuations_ne_nil_iff, Option.isSome_iff_exists]
  constructor
  · intro ⟨⟨count, targets⟩, marked⟩
    obtain ⟨words, marks, ⟨-, some, -⟩ | ⟨⟨word, member, -⟩, -⟩⟩ :=
      (marked?_eq_some_iff isKeyword).mp marked
    · exact some
    · rw [marks_iff isKeyword] at empty marks
      obtain rfl := Option.some.inj (empty.symm.trans marks)
      cases member
  · intro some
    exact ⟨_, (marked?_eq_some_iff isKeyword).mpr ⟨[], empty, Or.inl ⟨rfl, some, rfl, rfl⟩⟩⟩

/-- The keywords of a compiled configuration do not start with a blank. -/
theorem isKeyword_of_compile {config : Config} {limit : Nat} {scheme : Scheme}
    (compiled : config.compileWithin limit = .ok scheme) (listed : keyword ∈ scheme.markerKeywords)
    : IsKeyword keyword := by
  have compiles := Config.compilesTo_of_compile compiled
  obtain ⟨implementing, validating⟩ := Config.keywords_of_checkKeywords compiles.keywords
  have trimmed {written : String} (some : trim written.toList ≠ [])
      : IsKeyword (String.ofList (trim written.toList)) := by
    have solid := (trimmed_iff.mp (trim_trim written.toList)).1
    have head := List.head?_eq_some_head some
    rw [IsKeyword, String.toList_ofList]
    exact ⟨_, head, solid _ head⟩
  simp only [Scheme.markerKeywords, List.mem_cons, List.not_mem_nil, or_false,
    compiles.implementsKeyword, compiles.validatesKeyword] at listed
  rcases listed with rfl | rfl
  · exact trimmed implementing
  · exact trimmed validating

/-- Whatever the configuration, markers are claimed exactly and lose no target. -/
theorem areMarkers_markers {config : Config} {limit : Nat} {scheme : Scheme}
    (compiled : config.compileWithin limit = .ok scheme) (listed : keyword ∈ scheme.markerKeywords)
    (make : Traceability.Reference → Content) {lines : List Line}
    (ascending : Line.Ascending lines)
    : AreMarkers make scheme.idPrefix keyword lines
        (markers make scheme.idPrefix keyword lines) := by
  have isKeyword := isKeyword_of_compile compiled listed
  have contiguous := contiguous_marked make scheme.idPrefix keyword
  have ordered := Block.sweep_pairwise_before contiguous ascending
  constructor
  case ordered => exact ordered
  case taken =>
    intro block member
    obtain ⟨line, rest, count, targets, behind, marked, rfl⟩ := mem_markers member
    have inRun := contiguous line rest count _ (Option.map_eq_some_iff.mpr ⟨_, marked, rfl⟩)
    obtain ⟨inner, more, rfl, rfl, takes⟩ := exists_takes_of_marked? make isKeyword marked
    have among : line :: inner ⊆ lines :=
      (((List.prefix_append inner more).sublist.cons_cons line).trans behind.sublist).subset
    have includes := Block.ofLines_includes_iff line (inner ++ more) inner.length
      (make ⟨targets, none⟩) inRun
    rw [List.take_left] at includes ⊢
    exact ⟨line, inner, more, behind, takes, fun other own =>
      (includes other.number).trans (ascending.number_mem_iff among own)⟩
  case named =>
    intro line member words marks names
    apply existsUnique_of_exists_of_unique
    · obtain ⟨skipped, rest, rfl⟩ := List.append_of_mem member
      have marked : marked? scheme.idPrefix keyword line rest = some (0, _) :=
        (marked?_eq_some_iff isKeyword).mpr ⟨words, marks, Or.inr ⟨names, rfl, rfl⟩⟩
      apply Block.exists_includes_of_opens contiguous ascending (List.suffix_append skipped _)
      exact Option.map_eq_some_iff.mpr ⟨_, marked, rfl⟩
    · rintro a b ⟨ownA, insideA⟩ ⟨ownB, insideB⟩
      exact Block.eq_of_includes ordered ownA ownB insideA insideB
  case empty =>
    intro line rest behind empty apart
    rw [← isSome_marked?_iff isKeyword empty]
    have starts := Block.exists_mem_sweep_iff contiguous ascending behind
    rw [Option.isSome_map] at starts
    exact starts.trans (and_iff_left apart)

/-- Lines with a marker that others continue, with markers that name targets, and with markers whose
next line comes behind a gap or continues nothing. -/
def gappedLines : List Line := [
  ⟨1, "run(); // Implements:"⟩, ⟨2, "//   REQ-d00002, (REQ-d00003)"⟩, ⟨3, "// REQ-d00004-A"⟩,
  ⟨4, "// as REQ-d00005"⟩, ⟨6, "# implements : see REQ-p00001"⟩, ⟨7, "# Implements:"⟩,
  ⟨9, "# REQ-d00006"⟩, ⟨10, "# Implements: ,"⟩, ⟨11, "# Implements: REQ-d00007"⟩]

theorem areMarkers_markers_gappedLines
    : let blocks := markers .codeReference "REQ" "Implements" gappedLines
      ({} : Config).compile = .ok Config.defaultScheme
        ∧ "Implements" ∈ Config.defaultScheme.markerKeywords
        ∧ Line.Ascending gappedLines
        ∧ blocks.map (fun block => (block.startLine, block.endLine)) = [(1, 3), (6, 6), (11, 11)]
        ∧ AreMarkers .codeReference "REQ" "Implements" gappedLines blocks := by
  have listed : "Implements" ∈ Config.defaultScheme.markerKeywords := List.mem_cons_self
  have ascending : Line.Ascending gappedLines := by
    unfold Line.Ascending
    decide
  exact ⟨Config.compile_default, listed, ascending, by decide +kernel,
    areMarkers_markers Config.compile_default listed .codeReference ascending⟩

end Traceability.Claim.Reference
