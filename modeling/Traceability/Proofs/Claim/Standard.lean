import Traceability.Proofs.Claim.Partition

/-! What the standard registry reads from requirements.
Each claimant makes blocks of its own sort only, so the content of a requirement block was read
by the reader of requirements, from a heading to its closing marker.
-/

namespace Traceability

/-- A block of a sweep was opened by its first line. -/
theorem Block.mem_sweep {opens? : Line → List Line → Option (Nat × Content)}
    {lines : List Line} {block : Block} (member : block ∈ sweep opens? lines)
    : ∃ line rest count content,
        line :: rest <:+ lines
        ∧ opens? line rest = some (count, content)
        ∧ block = ofLines line (rest.take count) content := by
  induction lines using sweep.induct opens? with
  | case1 =>
      rw [sweep] at member
      exact absurd member List.not_mem_nil
  | case2 line rest passed ih =>
      rw [sweep, passed] at member
      obtain ⟨own, more, count, content, behind, found⟩ := ih member
      exact ⟨own, more, count, content, behind.trans (List.suffix_cons line rest), found⟩
  | case3 line rest count content opened ih =>
      rw [sweep, opened] at member
      rcases List.mem_cons.mp member with rfl | later
      · exact ⟨line, rest, count, content, List.suffix_rfl, opened, rfl⟩
      · obtain ⟨own, more, count', content', behind, found⟩ := ih later
        have skipped : rest.drop count <:+ line :: rest :=
          (List.drop_suffix count rest).trans (List.suffix_cons line rest)
        exact ⟨own, more, count', content', behind.trans skipped, found⟩

/-- A block that goes up to a closing line ends there. -/
theorem Block.endLine_ofLines_closed (line : Line) (inner : List Line) (last : Line)
    (further : List Line) (content : Content)
    : (ofLines line ((inner ++ last :: further).take (inner.length + 1)) content).endLine
      = last.number := by
  have taken : (inner ++ last :: further).take (inner.length + 1) = inner ++ [last] := by
    rw [List.take_length_add_append]
    rfl
  simp [ofLines, taken]

namespace Registry

/-- The claimants of the standard registry in the order in which they run. -/
theorem standard_claimants
    : standard.claimants
      = [Claim.comment, Claim.requirement, Claim.journey, Claim.codeReference,
          Claim.testReference] :=
  rfl

/-- A block of a file was proposed by one of the claimants, which saw lines of the file. -/
theorem mem_blocks_claim {registry : Registry} {context : ClaimContext} {lines : List Line}
    {block : Block} (member : block ∈ registry.blocks context lines)
    : ∃ claimant ∈ registry.passes, ∃ free,
        free.Sublist lines ∧ block ∈ claimant.claim context free := by
  have kept := (registry.blocks_perm context lines).mem_iff.mp member
  rcases mem_foldl_pass kept with none | ⟨earlier, claimant, later, offered, rest, split,
    proposed, -⟩
  · exact absurd none List.not_mem_nil
  · refine ⟨claimant, ?_, _, free_foldl_pass_sublist context _ earlier,
      proposed ▸ List.mem_append_right _ List.mem_cons_self⟩
    rw [split]
    exact List.mem_append_right _ List.mem_cons_self

end Registry

namespace Claim

theorem Comment.content_of_opens? {scheme : Scheme} {line : Line} {rest : List Line}
    {count : Nat} {content : Content} (opened : opens? scheme line rest = some (count, content))
    : ∃ text decorative, content = .comment text decorative := by
  obtain ⟨afterOpen, -, opened⟩ := Option.bind_eq_some_iff.mp opened
  split at opened
  · exact ⟨_, _, (Prod.mk.inj (Option.some.inj opened)).2.symm⟩
  · obtain ⟨⟨inner, last⟩, -, opened⟩ := Option.bind_eq_some_iff.mp opened
    exact ⟨_, _, (Prod.mk.inj (Option.some.inj opened)).2.symm⟩

theorem Requirement.of_opens? {scheme : Scheme} {line : Line} {rest : List Line} {count : Nat}
    {content : Content} (opened : opens? scheme line rest = some (count, content))
    : ∃ heading inner last,
        Heading.requirement? scheme line.text = some heading
        ∧ line.upTo? closesBlock (stops scheme) rest = some (inner, last)
        ∧ count = inner.length + 1
        ∧ content = .requirement (ofBlock heading inner last) := by
  obtain ⟨heading, headed, opened⟩ := Option.bind_eq_some_iff.mp opened
  obtain ⟨⟨inner, last⟩, closed, opened⟩ := Option.bind_eq_some_iff.mp opened
  obtain ⟨rfl, rfl⟩ := Prod.mk.inj (Option.some.inj opened)
  exact ⟨heading, inner, last, headed, closed, rfl, rfl⟩

theorem Journey.of_opens? {scheme : Scheme} {line : Line} {rest : List Line} {count : Nat}
    {content : Content} (opened : opens? scheme line rest = some (count, content))
    : ∃ heading inner,
        Heading.journey? scheme line.text = some heading
        ∧ content = .journey (ofBlock heading inner) := by
  obtain ⟨heading, headed, opened⟩ := Option.bind_eq_some_iff.mp opened
  obtain ⟨⟨inner, last⟩, -, opened⟩ := Option.bind_eq_some_iff.mp opened
  exact ⟨heading, inner, headed, (Prod.mk.inj (Option.some.inj opened)).2.symm⟩

/-- The words behind a marker that name targets. -/
def Reference.named (idPrefix : String) (tail : List Char) : List (List Char) :=
  (Marker.words tail).filter (Marker.isTarget idPrefix)

/-- A marker that names nothing at all takes the continuation lines behind it, and any other takes
no further line. -/
theorem Reference.marked?_cases {idPrefix keyword : String} {line : Line} {rest : List Line}
    {count : Nat} {targets : List Target}
    (marked : marked? idPrefix keyword line rest = some (count, targets))
    : ∃ tail,
        Marker.rest? keyword.toList line.text.toList = some tail
        ∧ (count = (continuations idPrefix line rest).length
            ∧ targets = (continuations idPrefix line rest).flatten
          ∨ count = 0 ∧ targets = targetsOn line.number (named idPrefix tail)) := by
  obtain ⟨tail, found, marked⟩ := Option.bind_eq_some_iff.mp marked
  refine ⟨tail, found, ?_⟩
  dsimp only at marked
  split at marked
  · obtain ⟨-, marked⟩ := Option.ite_none_left_eq_some.mp marked
    obtain ⟨rfl, rfl⟩ := Prod.mk.inj (Option.some.inj marked)
    exact Or.inl ⟨rfl, rfl⟩
  · obtain ⟨-, marked⟩ := Option.ite_none_left_eq_some.mp marked
    obtain ⟨rfl, rfl⟩ := Prod.mk.inj (Option.some.inj marked)
    exact Or.inr ⟨rfl, rfl⟩

/-- The lines that a marker takes are the continuation lines of its lists of targets. -/
theorem Reference.map_continuation?_take (idPrefix : String) (line : Line) (rest : List Line)
    : (rest.take (continuations idPrefix line rest).length).map (continuation? idPrefix)
      = (continuations idPrefix line rest).map some := by
  induction rest generalizing line with
  | nil => rfl
  | cons next rest ih =>
      rw [continuations]
      split
      · rfl
      · split
        · rfl
        · next targets read =>
            rw [List.length_cons, List.take_succ_cons, List.map_cons, List.map_cons, read, ih]

theorem Reference.exists_of_mem_continuations {idPrefix : String} {line : Line}
    {rest : List Line} {targets : List Target}
    (member : targets ∈ continuations idPrefix line rest)
    : ∃ next ∈ rest, continuation? idPrefix next = some targets := by
  have listed := List.mem_map_of_mem (f := some) member
  rw [← map_continuation?_take] at listed
  obtain ⟨next, taken, read⟩ := List.mem_map.mp listed
  exact ⟨next, List.mem_of_mem_take taken, read⟩

/-- A block of markers starts at its marker and goes as far as the marker takes lines. -/
theorem Reference.mem_markers {make : Traceability.Reference → Content}
    {idPrefix keyword : String} {lines : List Line} {block : Block}
    (member : block ∈ markers make idPrefix keyword lines)
    : ∃ line rest count targets,
        line :: rest <:+ lines
        ∧ marked? idPrefix keyword line rest = some (count, targets)
        ∧ block = Block.ofLines line (rest.take count) (make ⟨targets, none⟩) := by
  obtain ⟨line, rest, count, content, behind, opened, rfl⟩ := Block.mem_sweep member
  obtain ⟨⟨further, targets⟩, marked, same⟩ := Option.map_eq_some_iff.mp opened
  obtain ⟨rfl, rfl⟩ := Prod.mk.inj same
  exact ⟨line, rest, further, targets, behind, marked, rfl⟩

theorem Reference.content_of_markers {make : Traceability.Reference → Content}
    {idPrefix keyword : String} {lines : List Line} {block : Block}
    (member : block ∈ markers make idPrefix keyword lines)
    : ∃ reference, block.content = make reference := by
  obtain ⟨line, rest, count, targets, -, -, rfl⟩ := mem_markers member
  exact ⟨_, rfl⟩

theorem Reference.of_definition {scheme : Scheme} {line : Line} {block : Block}
    (defined : ofDefinition? scheme line = some block)
    : ∃ reference, block = Block.ofLines line [] (.testReference reference) := by
  obtain ⟨name, -, defined⟩ := Option.bind_eq_some_iff.mp defined
  split at defined
  · split at defined
    · exact absurd defined (by simp)
    · obtain rfl := Option.some.inj defined
      exact ⟨_, rfl⟩
  · exact absurd defined (by simp)

/-- Test references are read from markers and from the names of functions. -/
theorem cases_of_mem_testReference {context : ClaimContext} {free : List Line} {block : Block}
    (member : block ∈ testReference.claim context free)
    : block
        ∈ Reference.markers .testReference context.scheme.idPrefix
            context.scheme.validatesKeyword free
      ∨ ∃ line ∈ free, Reference.ofDefinition? context.scheme line = some block := by
  simp only [testReference] at member
  split at member
  · rw [Reference.withDefinitions, List.mem_mergeSort, List.mem_append] at member
    refine member.imp_right (fun defined => ?_)
    obtain ⟨line, other, defined⟩ := List.mem_filterMap.mp defined
    exact ⟨line, List.mem_of_mem_filter other, defined⟩
  · exact Or.inl member

theorem content_of_testReference {context : ClaimContext} {free : List Line} {block : Block}
    (member : block ∈ testReference.claim context free)
    : ∃ reference, block.content = .testReference reference := by
  rcases cases_of_mem_testReference member with marked | ⟨line, -, defined⟩
  · exact Reference.content_of_markers marked
  · obtain ⟨reference, rfl⟩ := Reference.of_definition defined
    exact ⟨reference, rfl⟩

/-- Each claimant makes blocks of its own sort, so the content of a block tells who read it. -/
theorem sort_of_mem_claim {context : ClaimContext} {free : List Line} {block : Block}
    {claimant : Claimant} (known : claimant ∈ Registry.standard.passes)
    (member : block ∈ claimant.claim context free)
    : match block.content with
      | .comment _ _ => claimant = comment
      | .requirement _ => claimant = requirement
      | .journey _ => claimant = journey
      | .codeReference _ => claimant = codeReference
      | .testReference _ => claimant = testReference
      | .remainder => claimant = remainder := by
  rw [Registry.passes, Registry.standard_claimants] at known
  simp only [List.cons_append, List.nil_append, List.mem_cons, List.not_mem_nil, or_false] at known
  rcases known with rfl | rfl | rfl | rfl | rfl | rfl
  · obtain ⟨line, rest, count, content, -, opened, rfl⟩ := Block.mem_sweep member
    obtain ⟨text, decorative, rfl⟩ := Comment.content_of_opens? opened
    rfl
  · obtain ⟨line, rest, count, content, -, opened, rfl⟩ := Block.mem_sweep member
    obtain ⟨heading, inner, last, -, -, -, rfl⟩ := Requirement.of_opens? opened
    rfl
  · obtain ⟨line, rest, count, content, -, opened, rfl⟩ := Block.mem_sweep member
    obtain ⟨heading, inner, -, rfl⟩ := Journey.of_opens? opened
    rfl
  · obtain ⟨reference, own⟩ := Reference.content_of_markers member
    simp only [own]
  · obtain ⟨reference, own⟩ := content_of_testReference member
    simp only [own]
  · obtain ⟨line, rest, count, content, -, opened, rfl⟩ := Block.mem_sweep member
    obtain ⟨-, rfl⟩ := Prod.mk.inj (Option.some.inj opened)
    rfl

/-- A claimant reads no requirements. -/
def NoRequirements (claimant : Claimant) : Prop :=
  ∀ context free, ∀ block ∈ claimant.claim context free, ∀ requirement,
    block.content ≠ .requirement requirement

theorem noRequirements_of_mem {claimant : Claimant}
    (other : claimant ∈ [comment, journey, codeReference, testReference, remainder])
    : NoRequirements claimant := by
  intro context free block member requirement content
  have known : claimant ∈ Registry.standard.passes := by
    rw [Registry.passes, Registry.standard_claimants]
    simp only [List.cons_append, List.nil_append, List.mem_cons] at other ⊢
    tauto
  have sort := sort_of_mem_claim known member
  rw [content] at sort
  subst sort
  have names := List.mem_map_of_mem (f := Claimant.name) other
  exact absurd names (by decide)

/-- What a requirement block holds was read from a heading and the lines up to a closing
marker, with which the block ends. -/
theorem requirement_of_mem_claim {context : ClaimContext} {free : List Line} {block : Block}
    {requirement : Traceability.Requirement} {claimant : Claimant}
    (known : claimant ∈ Registry.standard.passes)
    (member : block ∈ claimant.claim context free)
    (content : block.content = .requirement requirement)
    : ∃ heading inner last,
        (∃ text, Heading.requirement? context.scheme text = some heading)
        ∧ last ∈ free
        ∧ closesBlock last = true
        ∧ block.endLine = last.number
        ∧ requirement = Requirement.ofBlock heading inner last := by
  have sort := sort_of_mem_claim known member
  rw [content] at sort
  subst sort
  obtain ⟨line, rest, count, _, behind, opened, rfl⟩ := Block.mem_sweep member
  obtain ⟨heading, inner, last, headed, closed, rfl, own⟩ := Requirement.of_opens? opened
  obtain ⟨further, rfl, -, closes, -⟩ := Line.upTo?_spec closed
  exact ⟨heading, inner, last, ⟨line.text, headed⟩, behind.mem (by simp), closes,
    Block.endLine_ofLines_closed line inner last further _,
    (Content.requirement.inj (own.symm.trans content)).symm⟩

/-- What a journey block holds was read from a heading and the lines after it. -/
theorem journey_of_mem_claim {context : ClaimContext} {free : List Line} {block : Block}
    {journey : Traceability.Journey} {claimant : Claimant}
    (known : claimant ∈ Registry.standard.passes)
    (member : block ∈ claimant.claim context free)
    (content : block.content = .journey journey)
    : ∃ heading inner,
        (∃ text, Heading.journey? context.scheme text = some heading)
        ∧ journey = Journey.ofBlock heading inner := by
  have sort := sort_of_mem_claim known member
  rw [content] at sort
  subst sort
  obtain ⟨line, rest, count, _, -, opened, rfl⟩ := Block.mem_sweep member
  obtain ⟨heading, inner, headed, own⟩ := Journey.of_opens? opened
  exact ⟨heading, inner, ⟨line.text, headed⟩,
    (Content.journey.inj (own.symm.trans content)).symm⟩

/-- Assertions carry capital letters, since no other line is an assertion. -/
theorem Requirement.isUpper_of_mem_assertions {lines : List Line} {assertion : Assertion}
    (member : assertion ∈ assertions lines)
    : assertion.letter.isUpper = true := by
  induction lines with
  | nil => exact absurd member List.not_mem_nil
  | cons line rest ih =>
      rw [assertions] at member
      split at member
      · exact ih member
      · next letter text read =>
          rcases List.mem_cons.mp member with rfl | later
          · rw [Item.assertion?] at read
            split at read
            · exact absurd read (by simp)
            · split at read
              · next upper =>
                  obtain ⟨_, -, same⟩ := Option.map_eq_some_iff.mp read
                  exact (Prod.mk.inj same).1 ▸ upper
              · exact absurd read (by simp)
          · exact ih later

end Claim

end Traceability
