import Traceability.Proofs.Claim.Contract
import Traceability.Proofs.Line.Item
import Traceability.Proofs.Line.Written

/-! Requirement blocks as a writer has them.
A draft says what a requirement block is to say. Written out line by line and read again it gives
one block, which says just that.
-/

namespace Traceability

open Text

-----------------------------------------------------------------------------------------
-- Lines with consecutive numbers
-----------------------------------------------------------------------------------------

namespace Line

theorem length_numbered (first : Nat) (texts : List (List Char))
    : (numbered first texts).length = texts.length := by
  simpa using congrArg List.length (map_number_numbered first texts)

theorem map_text_numbered (first : Nat) (texts : List (List Char))
    : (numbered first texts).map (fun line => line.text.toList) = texts := by
  induction texts generalizing first with
  | nil => rfl
  | cons text rest ih => rw [numbered, List.map_cons, ih, String.toList_ofList]

theorem joinTexts_numbered (first : Nat) (texts : List (List Char))
    : joinTexts (numbered first texts) = String.ofList (join ['\n'] texts) := by
  rw [joinTexts, map_text_numbered]

/-- A search through consecutive lines ends at the first one that closes, if none before it stops
the search. -/
theorem upTo?_numbered {closes stops : Line → Bool} {inner : List (List Char)} {last : List Char}
    (passes : ∀ text ∈ inner, ∀ number,
      closes ⟨number, String.ofList text⟩ = false ∧ stops ⟨number, String.ofList text⟩ = false)
    (closed : ∀ number, closes ⟨number, String.ofList last⟩ = true) (line : Line)
    : line.upTo? closes stops (numbered (line.number + 1) (inner ++ [last]))
      = some (numbered (line.number + 1) inner,
          ⟨line.number + 1 + inner.length, String.ofList last⟩) := by
  induction inner generalizing line with
  | nil =>
      rw [List.nil_append, numbered, numbered, upTo?, if_neg (by simp), if_pos (closed _)]
      rfl
  | cons text rest ih =>
      obtain ⟨passed, goesOn⟩ := passes text List.mem_cons_self (line.number + 1)
      have later := ih (fun other member => passes other (List.mem_cons_of_mem text member))
        ⟨line.number + 1, String.ofList text⟩
      rw [List.cons_append, numbered, upTo?, if_neg (by simp), if_neg (by simp [passed]),
        if_neg (by simp [goesOn]), later, List.length_cons, numbered]
      simp only [Option.map_some, Nat.add_assoc, Nat.add_comm 1]

end Line

-----------------------------------------------------------------------------------------
-- Drafts
-----------------------------------------------------------------------------------------

/-- What a requirement block is to say, with the proofs that it can be said. -/
structure Draft (scheme : Scheme) where
  signs : Nat
  id : String
  title : String
  level : String
  status : String
  implementsTargets : List String
  refinesTargets : List String
  addressesTargets : List String
  assertions : List (Char × String)
  name : String
  hash? : Option String
  signsFit : 1 ≤ signs ∧ signs ≤ 6
  isId : scheme.takeId? id.toList = some (id.toList, [])
  titleFits : Trimmed title.toList ∧ '\n' ∉ title.toList
  levelFits : Trimmed level.toList ∧ '|' ∉ level.toList
  statusFits : Trimmed status.toList ∧ '|' ∉ status.toList
  implementsFit : ∀ target ∈ implementsTargets, IsTarget target
  refinesFit : ∀ target ∈ refinesTargets, IsTarget target
  addressesFit : ∀ target ∈ addressesTargets, IsTarget target
  assertionsFit : ∀ item ∈ assertions, item.1.isUpper = true ∧ IsStatement item.2
  nameFits : name.toList ≠ [] ∧ '*' ∉ name.toList
  hashFits : ∀ hash ∈ hash?, Solid hash.toList

namespace Draft

variable {scheme : Scheme} (draft : Draft scheme)

def heading : List Char :=
  Heading.written draft.signs draft.id draft.title

def fields : List (List Char × List Char) := [
  ("Level".toList, draft.level.toList),
  ("Status".toList, draft.status.toList),
  ("Implements".toList, targetText draft.implementsTargets),
  ("Refines".toList, targetText draft.refinesTargets),
  ("Addresses".toList, targetText draft.addressesTargets)]

def metadata : List Char :=
  join [' ', '|', ' '] (draft.fields.map (fun field => Field.written field.1 field.2))

/-- The lines of assertions, one each. -/
def items : List (List Char) :=
  draft.assertions.map (fun item => Item.written item.1 item.2)

def closing : List Char :=
  ClosingMarker.written draft.name draft.hash?

/-- The lines of the block. -/
def texts : List (List Char) :=
  draft.heading :: draft.metadata :: (draft.items ++ [draft.closing])

/-- The requirement of the block if its first line has this number. -/
def requirement (first : Nat) : Requirement where
  id := draft.id
  title := draft.title
  level := some draft.level
  status := some draft.status
  hasMetadata := true
  implementsTargets := draft.implementsTargets
  refinesTargets := draft.refinesTargets
  addressesTargets := draft.addressesTargets
  assertions := (draft.assertions.zipIdx (first + 2)).map
    (fun (item, number) => ⟨item.1, item.2, number⟩)
  body := String.ofList (join ['\n'] draft.items)
  storedHash := draft.hash?
  endMarker := String.ofList draft.closing
  endLine := first + 2 + draft.assertions.length

/-- The block if its first line has this number. -/
def block (first : Nat) : Block where
  startLine := first
  endLine := first + 2 + draft.assertions.length
  rawText := String.ofList (join ['\n'] draft.texts)
  content := .requirement (draft.requirement first)

-----------------------------------------------------------------------------------------
-- The metadata line
-----------------------------------------------------------------------------------------

/-- The metadata line has the five fields. -/
theorem ofLine_metadata
    : Field.ofLine (String.ofList draft.metadata)
      = [⟨"level", draft.level⟩, ⟨"status", draft.status⟩,
          ⟨"implements", String.ofList (targetText draft.implementsTargets)⟩,
          ⟨"refines", String.ofList (targetText draft.refinesTargets)⟩,
          ⟨"addresses", String.ofList (targetText draft.addressesTargets)⟩] := by
  have fits {name : String} (signs : '*' ∉ name.toList ∧ '|' ∉ name.toList) {value : List Char}
      (noBar : '|' ∉ value)
      : '*' ∉ name.toList ∧ '|' ∉ name.toList ∧ '|' ∉ value :=
    ⟨signs.1, signs.2, noBar⟩
  have plain : ∀ field ∈ draft.fields, '*' ∉ field.1 ∧ '|' ∉ field.1 ∧ '|' ∉ field.2 :=
    List.forall_mem_cons.mpr ⟨fits (by decide) draft.levelFits.2,
      List.forall_mem_cons.mpr ⟨fits (by decide) draft.statusFits.2,
        List.forall_mem_cons.mpr ⟨fits (by decide) (noBar_targetText draft.implementsFit),
          List.forall_mem_cons.mpr ⟨fits (by decide) (noBar_targetText draft.refinesFit),
            List.forall_mem_singleton.mpr
              (fits (by decide) (noBar_targetText draft.addressesFit))⟩⟩⟩⟩
  have keys
      : String.ofList ((trim "Level".toList).map Char.toLower) = "level"
        ∧ String.ofList ((trim "Status".toList).map Char.toLower) = "status"
        ∧ String.ofList ((trim "Implements".toList).map Char.toLower) = "implements"
        ∧ String.ofList ((trim "Refines".toList).map Char.toLower) = "refines"
        ∧ String.ofList ((trim "Addresses".toList).map Char.toLower) = "addresses" := by
    decide
  obtain ⟨level, status, implements, refines, addresses⟩ := keys
  have nonempty : draft.fields ≠ [] := List.cons_ne_nil _ _
  rw [metadata, Field.ofLine_written nonempty plain]
  simp only [fields, List.map_cons, List.map_nil, level, status, implements, refines, addresses,
    show trim draft.level.toList = _ from draft.levelFits.1,
    show trim draft.status.toList = _ from draft.statusFits.1,
    show trim (targetText _) = _ from trimmed_targetText draft.implementsFit,
    show trim (targetText _) = _ from trimmed_targetText draft.refinesFit,
    show trim (targetText _) = _ from trimmed_targetText draft.addressesFit,
    String.ofList_toList]

theorem isMetadata_metadata (number : Nat)
    : Claim.Requirement.isMetadata ⟨number, String.ofList draft.metadata⟩ = true := by
  rw [Claim.Requirement.isMetadata, ofLine_metadata]
  rfl

-----------------------------------------------------------------------------------------
-- Assertion lines
-----------------------------------------------------------------------------------------

/-- Every line of an assertion is one of its own, as none continues the one before. -/
theorem assertions_numbered {items : List (Char × String)}
    (fit : ∀ item ∈ items, item.1.isUpper = true ∧ IsStatement item.2) (first : Nat)
    : Claim.Requirement.assertions
          (Line.numbered first (items.map (fun item => Item.written item.1 item.2)))
      = (items.zipIdx first).map (fun (item, number) => ⟨item.1, item.2, number⟩) := by
  induction items generalizing first with
  | nil => rfl
  | cons item rest ih =>
      have own := fit item List.mem_cons_self
      have read := ih (fun other member => fit other (List.mem_cons_of_mem item member))
        (first + 1)
      let later := Line.numbered (first + 1) (rest.map (fun item => Item.written item.1 item.2))
      have none : later.takeWhile (fun line => Item.continues line.text) = [] := by
        cases rest with
        | nil => rfl
        | cons next more =>
            have fits := fit next (by simp)
            refine List.takeWhile_cons_of_neg fun further => ?_
            have read := Item.assertion?_of_continues further
            rw [Item.assertion?_written fits.1 fits.2] at read
            cases read
      rw [List.map_cons, Line.numbered, Claim.Requirement.assertions,
        Item.assertion?_written own.1 own.2]
      simp only [later] at none
      simp only [none, read, List.map_nil, join, String.ofList_toList, List.zipIdx_cons,
        List.map_cons]

-----------------------------------------------------------------------------------------
-- The block
-----------------------------------------------------------------------------------------

theorem ofLine?_closing
    : ClosingMarker.ofLine? (String.ofList draft.closing) = some ⟨draft.name, draft.hash?⟩ :=
  ClosingMarker.ofLine?_written draft.nameFits.1 draft.nameFits.2 draft.hashFits

/-- The lines of the draft say what the draft says. -/
theorem ofBlock_eq (first : Nat)
    : Claim.Requirement.ofBlock ⟨draft.id, draft.title⟩
          (Line.numbered (first + 1) (draft.metadata :: draft.items))
          ⟨first + 2 + draft.assertions.length, String.ofList draft.closing⟩
      = draft.requirement first := by
  have found (rest : List Line)
      : (⟨first + 1, String.ofList draft.metadata⟩ :: rest).dropWhile
          (fun line => !Claim.Requirement.isMetadata line)
        = ⟨first + 1, String.ofList draft.metadata⟩ :: rest :=
    List.dropWhile_cons_of_neg (by simp [isMetadata_metadata])
  let fields := Field.ofLine (String.ofList draft.metadata)
  have values : Field.value? fields "level" = some draft.level
      ∧ Field.value? fields "status" = some draft.status := by
    simp [fields, ofLine_metadata, Field.value?]
  have targets
      : Claim.Requirement.targets fields "implements" = draft.implementsTargets
        ∧ Claim.Requirement.targets fields "refines" = draft.refinesTargets
        ∧ Claim.Requirement.targets fields "addresses" = draft.addressesTargets := by
    simp [fields, ofLine_metadata, Claim.Requirement.targets, Field.value?,
      targetList_targetText draft.implementsFit, targetList_targetText draft.refinesFit,
      targetList_targetText draft.addressesFit]
  simp only [Claim.Requirement.ofBlock, Line.numbered, found, List.head?_cons, Option.map_some,
    Option.getD_some, reduceCtorEq, if_false, List.tail_cons, ofLine?_closing, Option.bind_some,
    show Field.ofLine (String.ofList draft.metadata) = fields from rfl, values, targets,
    Line.joinTexts_numbered, items, assertions_numbered draft.assertionsFit, ne_eq,
    not_false_eq_true, decide_true]
  rfl

/-- A line that starts like none of them is neither a heading nor a closing marker. -/
theorem passes_of_start {c d : Char} (noSign : c ≠ '#') (noMarker : d ≠ 'E') (rest : List Char)
    (number : Nat)
    : let line : Line := ⟨number, String.ofList (c :: d :: rest)⟩
      Claim.closesBlock line = false ∧ Claim.Requirement.stops scheme line = false := by
  intro line
  have starts : line.text.toList = c :: d :: rest := String.toList_ofList
  constructor
  · by_contra closes
    obtain ⟨tail, start⟩ := ClosingMarker.exists_start (Bool.not_eq_false _ ▸ closes)
    rw [starts] at start
    exact noMarker (List.cons.inj (List.cons.inj start).2).1
  · rw [Claim.Requirement.stops, Heading.requirement?, Heading.ofParts?, Heading.opensJourney,
      Heading.parts?_of_start starts noSign, Heading.parts?_of_start starts noSign]
    rfl

/-- No line between the heading and the closing marker stops the search for the marker. -/
theorem passes_inner
    : ∀ text ∈ draft.metadata :: draft.items, ∀ number,
        Claim.closesBlock ⟨number, String.ofList text⟩ = false
        ∧ Claim.Requirement.stops scheme ⟨number, String.ofList text⟩ = false := by
  refine List.forall_mem_cons.mpr ⟨?_, List.forall_mem_map.mpr fun item own => ?_⟩
  · obtain ⟨rest, starts⟩ : ∃ rest, draft.metadata = '*' :: '*' :: rest := ⟨_, rfl⟩
    rw [starts]
    exact passes_of_start (by decide) (by decide) rest
  · have noSign : item.1 ≠ '#' := by
      intro sign
      have upper := (draft.assertionsFit item own).1
      rw [sign] at upper
      exact absurd upper (by decide)
    exact passes_of_start noSign (by decide) _

/-- The line of the heading. -/
def firstLine (first : Nat) : Line :=
  ⟨first, String.ofList draft.heading⟩

/-- The lines behind the heading. -/
def furtherLines (first : Nat) : List Line :=
  Line.numbered (first + 1) ((draft.metadata :: draft.items) ++ [draft.closing])

theorem length_furtherLines (first : Nat)
    : (draft.furtherLines first).length = draft.assertions.length + 2 := by
  simp [furtherLines, items, Line.length_numbered]

/-- The closing marker is the first line behind the heading that closes a block. -/
theorem upTo?_furtherLines (first : Nat)
    : (draft.firstLine first).upTo? Claim.closesBlock (Claim.Requirement.stops scheme)
          (draft.furtherLines first)
      = some (Line.numbered (first + 1) (draft.metadata :: draft.items),
          ⟨first + 2 + draft.assertions.length, String.ofList draft.closing⟩) := by
  have closed (number : Nat)
      : Claim.closesBlock ⟨number, String.ofList draft.closing⟩ = true := by
    rw [Claim.closesBlock, ofLine?_closing]
    rfl
  have last : first + 1 + (draft.metadata :: draft.items).length
      = first + 2 + draft.assertions.length := by
    simp only [items, List.length_cons, List.length_map]
    omega
  rw [← last]
  exact Line.upTo?_numbered draft.passes_inner closed (draft.firstLine first)

theorem opens?_firstLine {config : Config} {limit : Nat}
    (compiled : config.compileWithin limit = .ok scheme) (first : Nat)
    : Claim.Requirement.opens? scheme (draft.firstLine first) (draft.furtherLines first)
      = some (draft.assertions.length + 2, .requirement (draft.requirement first)) := by
  have headed : Heading.requirement? scheme (String.ofList draft.heading)
      = some ⟨draft.id, draft.title⟩ :=
    Heading.requirement?_written (Config.idDigits_of_compile compiled)
      (Config.prefixes_of_compile compiled).1 draft.signsFit.1 draft.signsFit.2 draft.isId
      draft.titleFits.1 draft.titleFits.2
  have count : (draft.metadata :: draft.items).length + 1 = draft.assertions.length + 2 := by
    simp [items]
  rw [Claim.Requirement.opens?, firstLine, headed, ← firstLine]
  simp only [Option.bind_eq_bind, Option.bind_some, upTo?_furtherLines, Option.pure_def,
    Line.length_numbered, count, ofBlock_eq]

theorem ofLines_eq (first : Nat)
    : Block.ofLines (draft.firstLine first) (draft.furtherLines first)
          (.requirement (draft.requirement first))
      = draft.block first := by
  have length := draft.length_furtherLines first
  obtain ⟨-, -, inRun, -⟩ := Line.upTo?_spec (draft.upTo?_furtherLines first)
  have last := Block.ofLines_endLine _ _ _ (.requirement (draft.requirement first)) inRun
  rw [Line.length_numbered, List.take_of_length_le (by simp [length, items])] at last
  have number
      : first + ((draft.metadata :: draft.items).length + 1)
        = first + 2 + draft.assertions.length := by
    simp only [items, List.length_cons, List.length_map]
    omega
  rw [block, texts, ← Line.joinTexts_numbered first, ← number]
  exact Block.mk.injEq .. ▸ ⟨rfl, last, rfl, rfl⟩

end Draft

/-- A draft that is written out and read again gives one block, which says what the draft says. -/
theorem Claim.requirement_claim_draft {config : Config} {limit : Nat} {scheme : Scheme}
    (compiled : config.compileWithin limit = .ok scheme) (draft : Draft scheme) (path : String)
    (first : Nat)
    : requirement.claim ⟨path, scheme⟩ (Line.numbered first draft.texts) = [draft.block first] := by
  have length := draft.length_furtherLines first
  calc
    requirement.claim ⟨path, scheme⟩ (Line.numbered first draft.texts)
      = Block.sweep (Requirement.opens? scheme)
          (draft.firstLine first :: draft.furtherLines first) := rfl
    _ = [Block.ofLines (draft.firstLine first) (draft.furtherLines first)
          (.requirement (draft.requirement first))] := by
        rw [Block.sweep, draft.opens?_firstLine compiled]
        simp only [List.take_of_length_le (Nat.le_of_eq length),
          List.drop_of_length_le (Nat.le_of_eq length), Block.sweep]
    _ = [draft.block first] := by rw [draft.ofLines_eq]

/-- A draft with text that looks like other parts of a block. -/
def Draft.awkward : Draft Config.defaultScheme where
  signs := 2
  id := "REQ-o00002"
  title := "# *End* *REQ-p00001*: A. **Level**"
  level := "**Status**: OPS"
  status := ""
  implementsTargets := ["REQ-p00001", "- A"]
  refinesTargets := []
  addressesTargets := ["JNY-Use-01"]
  assertions := [('B', "*End* *Name*"), ('A', "**Level**: PRD | -")]
  name := " A | Hash: "
  hash? := some "**Hash**:"
  signsFit := by decide
  isId := by decide +kernel
  titleFits := by decide
  levelFits := by decide
  statusFits := by decide
  implementsFit := by decide
  refinesFit := by decide
  addressesFit := by decide
  assertionsFit := by decide
  nameFits := by decide
  hashFits := by
    intro hash own
    cases own
    exact ⟨by decide, forall_mem_of_all (by decide)⟩

theorem Claim.requirement_claim_draft_awkward
    : ({} : Config).compile = .ok Config.defaultScheme
      ∧ Draft.awkward.texts.map String.ofList
        = ["## REQ-o00002: # *End* *REQ-p00001*: A. **Level**",
            "**Level**: **Status**: OPS | **Status**:  | **Implements**: REQ-p00001, - A"
              ++ " | **Refines**: - | **Addresses**: JNY-Use-01",
            "B. *End* *Name*", "A. **Level**: PRD | -",
            "*End* * A | Hash: * | **Hash**: **Hash**:"]
      ∧ requirement.claim ⟨"a.md", Config.defaultScheme⟩ (Line.numbered 7 Draft.awkward.texts)
        = [Draft.awkward.block 7] :=
  ⟨Config.compile_default, by decide +kernel,
    requirement_claim_draft Config.compile_default Draft.awkward "a.md" 7⟩

end Traceability
