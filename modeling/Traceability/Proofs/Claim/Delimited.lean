import Traceability.Proofs.Claim.Contract
import Traceability.Proofs.Config.Compile
import Traceability.Proofs.Line.Heading

/-! The blocks from a heading to a closing marker.
Requirements and journeys are read alike: a block opens at a heading and goes to the next closing
marker, if no heading and no gap comes before it. No other heading stands in a block, so the
sweep over the lines passes over none that opens one.
-/

namespace Traceability

-----------------------------------------------------------------------------------------
-- Stretches of lines
-----------------------------------------------------------------------------------------

/-- The lines from position `i` to position `j` make a block: the first one opens it, the last one
is the first closing marker behind that, their numbers are consecutive, and no line between them
stops the search. -/
structure Line.Delimited (opens stops : Line → Bool) (lines : List Line) (i j : Nat) : Prop where
  ordered : i < j
  opening : ∃ line ∈ lines[i]?, opens line = true
  closing : ∃ line ∈ lines[j]?, Claim.closesBlock line = true
  consecutive
    : ∀ k, i ≤ k → k < j → ∀ line ∈ lines[k]?, ∀ next ∈ lines[k + 1]?,
        next.number = line.number + 1
  between
    : ∀ k, i < k → k < j → ∀ line ∈ lines[k]?,
        Claim.closesBlock line = false ∧ stops line = false

/-- A block covers the lines from position `i` to position `j`. -/
structure Block.Spans (block : Block) (lines : List Line) (i j : Nat) : Prop where
  first : ∃ line ∈ lines[i]?, block.startLine = line.number
  last : ∃ line ∈ lines[j]?, block.endLine = line.number
  rawText : block.rawText = Line.joinTexts ((lines.drop i).take (j + 1 - i))

namespace Line

variable {opens stops : Line → Bool} {lines : List Line} {i j : Nat}

theorem getElem?_of_drop {block further : List Line} (behind : lines.drop i = block ++ further)
    {k : Nat} (inside : k < block.length)
    : lines[i + k]? = block[k]? := by
  rw [← List.getElem?_drop, behind, List.getElem?_append_left inside]

theorem drop_eq_cons {line : Line} (here : lines[i]? = some line)
    : lines.drop i = line :: lines.drop (i + 1) := by
  obtain ⟨inside, rfl⟩ := List.getElem?_eq_some_iff.mp here
  exact List.drop_eq_getElem_cons inside

theorem delimited_of_upTo? {first last : Line} {rest inner : List Line}
    (behind : lines.drop i = first :: rest) (opened : opens first = true)
    (found : first.upTo? Claim.closesBlock stops rest = some (inner, last))
    : Delimited opens stops lines i (i + (inner.length + 1)) := by
  obtain ⟨further, rfl, consecutive, closed, passes⟩ := upTo?_eq_some_iff.mp found
  have behind : lines.drop i = (first :: (inner ++ [last])) ++ further := by simp [behind]
  have at' {k : Nat} (inside : k ≤ inner.length + 1)
      : lines[i + k]? = (first :: (inner ++ [last]))[k]? :=
    getElem?_of_drop behind (by simp; omega)
  constructor
  · omega
  · exact ⟨first, at' (Nat.zero_le _), opened⟩
  · exact ⟨last, by rw [at' (Nat.le_refl _)]; simp, closed⟩
  · intro k above below line here next there
    obtain ⟨m, rfl⟩ := Nat.exists_eq_add_of_le above
    rw [at' (by omega)] at here
    rw [Nat.add_assoc, at' (by omega)] at there
    obtain ⟨_, rfl⟩ := List.getElem?_eq_some_iff.mp here
    obtain ⟨inside, rfl⟩ := List.getElem?_eq_some_iff.mp there
    exact List.isChain_iff_getElem.mp consecutive m inside
  · intro k above below line here
    obtain ⟨m, rfl⟩ := Nat.exists_eq_add_of_lt above
    rw [Nat.add_assoc, at' (by omega), List.getElem?_cons_succ,
      List.getElem?_append_left (by omega)] at here
    exact passes line (List.mem_of_getElem? here)

/-- The lines behind the first up to the last of a delimited stretch are found by a search. -/
theorem Delimited.exists_upTo? (delimited : Delimited opens stops lines i j)
    : ∃ first rest inner last,
        lines.drop i = first :: rest
        ∧ opens first = true
        ∧ first.upTo? Claim.closesBlock stops rest = some (inner, last)
        ∧ j = i + (inner.length + 1) := by
  obtain ⟨n, rfl⟩ := Nat.exists_eq_add_of_lt delimited.ordered
  obtain ⟨first, here, opened⟩ := delimited.opening
  obtain ⟨last, there, closed⟩ := delimited.closing
  let inner := (lines.drop (i + 1)).take n
  have whole : lines.drop (i + 1) = inner ++ last :: lines.drop (i + n + 1 + 1) := by
    have tail : (lines.drop (i + 1)).drop n = last :: lines.drop (i + n + 1 + 1) := by
      rw [List.drop_drop, show i + 1 + n = i + n + 1 by omega]
      exact drop_eq_cons there
    rw [← tail, List.take_append_drop]
  have size : inner.length = n := by
    have within := (List.getElem?_eq_some_iff.mp there).1
    simp only [inner, List.length_take, List.length_drop]
    omega
  have behind : lines.drop i = (first :: (inner ++ [last])) ++ lines.drop (i + n + 1 + 1) := by
    rw [drop_eq_cons here, whole]
    simp
  have at' {k : Nat} (inside : k ≤ n + 1) : lines[i + k]? = (first :: (inner ++ [last]))[k]? :=
    getElem?_of_drop behind (by simp [size]; omega)
  refine ⟨first, _, inner, last, drop_eq_cons here, opened, upTo?_eq_some_iff.mpr
    ⟨_, whole, ?_, closed, ?_⟩, by omega⟩
  · refine List.isChain_iff_getElem.mpr fun m inside => ?_
    have bound : m < n + 1 := by simpa [size] using inside
    refine delimited.consecutive (i + m) (by omega) (by omega) _ ?_ _ ?_
    · rw [at' (by omega)]
      exact List.getElem?_eq_getElem _
    · rw [Nat.add_assoc, at' (by omega)]
      exact List.getElem?_eq_getElem _
  · intro other member
    obtain ⟨m, inside, rfl⟩ := List.getElem_of_mem member
    refine delimited.between (i + (m + 1)) (by omega) (by omega) _ ?_
    rw [at' (by omega), List.getElem?_cons_succ, List.getElem?_append_left inside]
    exact List.getElem?_eq_getElem _

end Line

namespace Block

variable {opens stops : Line → Bool} {opens? : Line → List Line → Option (Nat × Content)}

/-- A sweep opens a block at a line exactly if the line opens one and a closing marker is found
behind it, up to which the block goes. -/
def TakesDelimited (opens stops : Line → Bool)
    (opens? : Line → List Line → Option (Nat × Content)) : Prop :=
  ∀ line rest count,
    (∃ content, opens? line rest = some (count, content))
      ↔ opens line = true
        ∧ ∃ inner last,
            line.upTo? Claim.closesBlock stops rest = some (inner, last)
            ∧ count = inner.length + 1

/-- A sweep misses no line that opens a block, if no line opens one inside another. -/
theorem mem_sweep_of_opens
    (clear : ∀ line rest count content, opens? line rest = some (count, content) →
      ∀ other ∈ rest.take count, ∀ more, opens? other more = none)
    {lines rest : List Line} {line : Line} {count : Nat} {content : Content}
    (behind : line :: rest <:+ lines) (opened : opens? line rest = some (count, content))
    : ofLines line (rest.take count) content ∈ sweep opens? lines := by
  induction lines using sweep.induct opens? with
  | case1 => exact absurd behind (by simp)
  | case2 other more passed ih =>
      rw [sweep, passed]
      rcases List.suffix_cons_iff.mp behind with same | later
      · cases same
        rw [opened] at passed
        cases passed
      · exact ih later
  | case3 other more count' content' found ih =>
      rw [sweep, found]
      rcases List.suffix_cons_iff.mp behind with same | later
      · cases same
        rw [opened] at found
        cases found
        exact List.mem_cons_self
      · refine List.mem_cons_of_mem _ (ih ?_)
        -- The line is behind the block, as it would not be open inside it.
        rcases List.suffix_or_suffix_of_suffix later (List.drop_suffix count' more) with
          inside | ⟨front, whole⟩
        · exact inside
        · cases front with
          | nil => exact (List.nil_append _ ▸ whole) ▸ List.suffix_rfl
          | cons first front =>
              obtain rfl : first = line := (List.cons.inj whole).1
              obtain ⟨skipped, split⟩ := later
              have taken : more.take count' = skipped ++ first :: front := by
                rw [← whole, ← List.append_assoc] at split
                nth_rewrite 2 [← List.take_append_drop count' more] at split
                exact (List.append_cancel_right split).symm
              have unopened := clear other more count' content' found first
                (taken ▸ List.mem_append_right _ List.mem_cons_self) rest
              rw [opened] at unopened
              cases unopened

theorem Spans.unique {lines : List Line} (ascending : Line.Ascending lines) {block : Block}
    {i j k l : Nat} (spans : block.Spans lines i j) (again : block.Spans lines k l)
    : i = k ∧ j = l := by
  have position {i k : Nat} {a b : Line} (here : lines[i]? = some a) (there : lines[k]? = some b)
      (same : a.number = b.number)
      : i = k := by
    have inside : i < (lines.map Line.number).length := by
      rw [List.length_map]
      exact (List.getElem?_eq_some_iff.mp here).1
    refine (List.getElem?_inj inside ascending.nodup).mp ?_
    rw [List.getElem?_map, List.getElem?_map, here, there, Option.map_some, Option.map_some, same]
  obtain ⟨first, here, starts⟩ := spans.first
  obtain ⟨first', here', starts'⟩ := again.first
  obtain ⟨last, there, ends⟩ := spans.last
  obtain ⟨last', there', ends'⟩ := again.last
  exact ⟨position here here' (starts.symm.trans starts'),
    position there there' (ends.symm.trans ends')⟩

/-- Blocks that cover exactly the delimited stretches of lines, in the order of the lines. -/
structure CoverDelimited (opens stops : Line → Bool) (lines : List Line) (blocks : List Block)
    : Prop where
  covered : ∀ block ∈ blocks, ∃ i j, block.Spans lines i j
  exact
    : ∀ i j, (∃ block ∈ blocks, block.Spans lines i j) ↔ Line.Delimited opens stops lines i j
  ordered : blocks.Pairwise (fun a b => a.endLine < b.startLine)

theorem spans_ofLines {lines rest inner : List Line} {line last : Line} {i : Nat}
    (behind : lines.drop i = line :: rest)
    (found : line.upTo? Claim.closesBlock stops rest = some (inner, last)) (content : Content)
    : (ofLines line (rest.take (inner.length + 1)) content).Spans lines i
        (i + (inner.length + 1)) := by
  obtain ⟨further, rfl, -⟩ := Line.upTo?_eq_some_iff.mp found
  have whole : lines.drop i = (line :: (inner ++ [last])) ++ further := by simp [behind]
  constructor
  · exact ⟨line, by simpa using Line.getElem?_of_drop whole (Nat.succ_pos _), rfl⟩
  · refine ⟨last, ?_, endLine_ofLines_closed line inner last further content⟩
    rw [Line.getElem?_of_drop whole (by simp)]
    simp
  · rw [behind, show i + (inner.length + 1) + 1 - i = inner.length + 1 + 1 by omega]
    rfl

theorem TakesDelimited.contiguous (takes : TakesDelimited opens stops opens?)
    : Contiguous opens? := by
  intro line rest count content opened
  obtain ⟨-, inner, last, found, rfl⟩ := (takes line rest count).mp ⟨content, opened⟩
  obtain ⟨-, -, inRun, -⟩ := Line.upTo?_spec found
  exact inRun

/-- No block opens inside another, as a line that opens one stops the search and is no closing
marker. -/
theorem TakesDelimited.clear (takes : TakesDelimited opens stops opens?)
    (stopping : ∀ line, opens line = true → stops line = true)
    (apart : ∀ line, opens line = true → Claim.closesBlock line = false)
    : ∀ line rest count content, opens? line rest = some (count, content) →
        ∀ other ∈ rest.take count, ∀ more, opens? other more = none := by
  intro line rest count content opened other member more
  obtain ⟨-, inner, last, found, rfl⟩ := (takes line rest count).mp ⟨content, opened⟩
  obtain ⟨further, rfl, -, closed, passes⟩ := Line.upTo?_eq_some_iff.mp found
  rw [Option.eq_none_iff_forall_ne_some]
  intro taken again
  have opening := ((takes other more taken.1).mp ⟨taken.2, again⟩).1
  rw [List.take_length_add_append, List.mem_append] at member
  rcases member with within | atEnd
  · have passed := (passes other within).2
    rw [stopping other opening] at passed
    cases passed
  · obtain rfl : other = last := by simpa using atEnd
    rw [apart other opening] at closed
    cases closed

theorem TakesDelimited.exists_spans (takes : TakesDelimited opens stops opens?)
    {lines : List Line} {block : Block} (member : block ∈ sweep opens? lines)
    : ∃ i j, block.Spans lines i j ∧ Line.Delimited opens stops lines i j := by
  obtain ⟨line, rest, count, content, ⟨skipped, rfl⟩, opened, rfl⟩ := mem_sweep member
  obtain ⟨opening, inner, last, found, rfl⟩ := (takes line rest count).mp ⟨content, opened⟩
  have behind : (skipped ++ line :: rest).drop skipped.length = line :: rest := List.drop_left
  exact ⟨_, _, spans_ofLines behind found content, Line.delimited_of_upTo? behind opening found⟩

/-- A sweep that takes delimited blocks covers exactly the delimited stretches of lines. -/
theorem TakesDelimited.coverDelimited (takes : TakesDelimited opens stops opens?)
    (stopping : ∀ line, opens line = true → stops line = true)
    (apart : ∀ line, opens line = true → Claim.closesBlock line = false) {lines : List Line}
    (ascending : Line.Ascending lines)
    : CoverDelimited opens stops lines (sweep opens? lines) := by
  refine ⟨?_, ?_, sweep_pairwise_before takes.contiguous ascending⟩
  · intro block member
    obtain ⟨i, j, spans, -⟩ := takes.exists_spans member
    exact ⟨i, j, spans⟩
  · intro i j
    constructor
    · rintro ⟨block, member, spans⟩
      obtain ⟨k, l, own, delimited⟩ := takes.exists_spans member
      obtain ⟨rfl, rfl⟩ := spans.unique ascending own
      exact delimited
    · intro delimited
      obtain ⟨first, rest, inner, last, behind, opening, found, rfl⟩ := delimited.exists_upTo?
      obtain ⟨content, opened⟩ :=
        (takes first rest (inner.length + 1)).mpr ⟨opening, inner, last, found, rfl⟩
      exact ⟨_, mem_sweep_of_opens (takes.clear stopping apart)
        (behind ▸ List.drop_suffix i lines) opened, spans_ofLines behind found content⟩

end Block

-----------------------------------------------------------------------------------------
-- Requirements and journeys
-----------------------------------------------------------------------------------------

namespace Claim

/-- A claimant that looks from a heading for the closing marker takes delimited blocks, whatever it
reads from them. -/
theorem takesDelimited_of_heading (heading? : Line → Option Heading) (stops : Line → Bool)
    (content : Heading → List Line → Line → Content)
    : Block.TakesDelimited (fun line => (heading? line).isSome) stops (fun line rest => do
        let heading ← heading? line
        let (inner, last) ← line.upTo? closesBlock stops rest
        return (inner.length + 1, content heading inner last)) := by
  intro line rest count
  constructor
  · rintro ⟨held, opened⟩
    obtain ⟨heading, headed, opened⟩ := Option.bind_eq_some_iff.mp opened
    obtain ⟨⟨inner, last⟩, found, opened⟩ := Option.bind_eq_some_iff.mp opened
    cases opened
    exact ⟨Option.isSome_iff_exists.mpr ⟨heading, headed⟩, inner, last, found, rfl⟩
  · rintro ⟨opening, inner, last, found, rfl⟩
    obtain ⟨heading, headed⟩ := Option.isSome_iff_exists.mp opening
    refine ⟨content heading inner last, ?_⟩
    simp only [headed, found, Option.bind_eq_bind, Option.bind_some, Option.pure_def]

theorem Requirement.takesDelimited (scheme : Scheme)
    : Block.TakesDelimited (fun line => (Heading.requirement? scheme line.text).isSome)
        (stops scheme) (opens? scheme) :=
  takesDelimited_of_heading (fun line => Heading.requirement? scheme line.text) (stops scheme)
    (fun heading inner last => .requirement (ofBlock heading inner last))

theorem Journey.takesDelimited (scheme : Scheme)
    : Block.TakesDelimited (fun line => (Heading.journey? scheme line.text).isSome)
        (stops scheme) (opens? scheme) :=
  takesDelimited_of_heading (fun line => Heading.journey? scheme line.text) (stops scheme)
    (fun heading inner _ => .journey (ofBlock heading inner))

/-- A heading is no closing marker. -/
theorem closesBlock_of_ofParts? {takeId? : List Char → Option (List Char × List Char)}
    {line : Line} (headed : (Heading.ofParts? takeId? line.text).isSome = true)
    : closesBlock line = false := by
  by_contra closes
  rw [Heading.ofParts?, ClosingMarker.parts?_eq_none (Bool.not_eq_false _ ▸ closes)] at headed
  cases headed

/-- On lines without line feeds both searches stop at the headings of requirements and of
journeys. -/
theorem stops_of_plain (scheme : Scheme) {line : Line} (plain : '\n' ∉ line.text.toList)
    : (Requirement.stops scheme line
        = ((Heading.requirement? scheme line.text).isSome
          || (Heading.journey? scheme line.text).isSome))
      ∧ Journey.stops scheme line = Requirement.stops scheme line := by
  have journeys
      : Heading.opensJourney scheme line.text = (Heading.journey? scheme line.text).isSome :=
    (Heading.isSome_ofParts? Scheme.suffix_of_takeJourneyId? plain).symm
  have requirements
      : Heading.opensRequirement scheme line.text
        = (Heading.requirement? scheme line.text).isSome :=
    (Heading.isSome_ofParts? Scheme.suffix_of_takeId? plain).symm
  rw [Journey.stops, Requirement.stops, journeys, requirements]
  exact ⟨rfl, Bool.or_comm _ _⟩

/-- Requirements and journeys cover exactly the stretches from one of their headings to the next
closing marker that no gap and no heading of either kind comes before. -/
theorem requirements_and_journeys_cover_delimited (context : ClaimContext) {lines : List Line}
    (ascending : Line.Ascending lines)
    : Block.CoverDelimited
        (fun line => (Heading.requirement? context.scheme line.text).isSome)
        (Requirement.stops context.scheme) lines (requirement.claim context lines)
      ∧ Block.CoverDelimited
          (fun line => (Heading.journey? context.scheme line.text).isSome)
          (Journey.stops context.scheme) lines (journey.claim context lines)
      ∧ ∀ line ∈ lines, '\n' ∉ line.text.toList →
          (Requirement.stops context.scheme line
            = ((Heading.requirement? context.scheme line.text).isSome
              || (Heading.journey? context.scheme line.text).isSome))
          ∧ Journey.stops context.scheme line = Requirement.stops context.scheme line :=
  ⟨(Requirement.takesDelimited context.scheme).coverDelimited
      (fun _ opening => Bool.or_eq_true_iff.mpr (.inl opening))
      (fun _ => closesBlock_of_ofParts?) ascending,
    (Journey.takesDelimited context.scheme).coverDelimited
      (fun _ opening => Bool.or_eq_true_iff.mpr (.inl opening))
      (fun _ => closesBlock_of_ofParts?) ascending,
    fun _ _ => stops_of_plain context.scheme⟩

/-- Lines with a requirement that the heading of a journey cuts short, that journey, and a
requirement whose closing marker stands behind a gap. -/
def interruptedLines : List Line := [
  ⟨1, "# REQ-p00001: Cut"⟩, ⟨2, "A. Some text"⟩, ⟨3, "## JNY-Use-01: Whole"⟩, ⟨4, "1. Open it"⟩,
  ⟨5, "*End* *Use*"⟩, ⟨6, "# REQ-p00002: Apart"⟩, ⟨9, "*End* *Apart*"⟩]

/-- Of the interrupted lines the journey alone is delimited, and alone makes a block. -/
theorem interruptedLines_cover
    : Line.Ascending interruptedLines
      ∧ Block.CoverDelimited
          (fun line => (Heading.journey? Config.defaultScheme line.text).isSome)
          (Journey.stops Config.defaultScheme) interruptedLines
          (journey.claim ⟨"a.md", Config.defaultScheme⟩ interruptedLines)
      ∧ (journey.claim ⟨"a.md", Config.defaultScheme⟩ interruptedLines).map
          (fun block => (block.startLine, block.endLine)) = [(3, 5)]
      ∧ requirement.claim ⟨"a.md", Config.defaultScheme⟩ interruptedLines = [] := by
  have ascending : Line.Ascending interruptedLines := by
    unfold Line.Ascending
    decide
  exact ⟨ascending,
    (requirements_and_journeys_cover_delimited ⟨"a.md", Config.defaultScheme⟩ ascending).2.1,
    by decide +kernel, by decide +kernel⟩

end Claim

end Traceability
