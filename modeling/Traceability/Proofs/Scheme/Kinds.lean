import Traceability.Proofs.Config.Compile
import Traceability.Proofs.Graph.Lettering

/-! Identifiers tell the kind of what they name.
An identifier goes as far as letters and digits in its kind's own word or in a prefix, and what
comes next is a hyphen or a colon. So requirements, journeys and references start apart from each
other. An assertion starts as its requirement does, but no requirement is named like it.
-/

namespace Traceability

/-- Texts that are cut at their first character of another sort agree in all parts. -/
theorem parts_eq_of_append_eq {p : Char → Bool} {front other rest more : List Char} {a b : Char}
    (sort : ∀ c ∈ front, p c = true) (ends : p a = false)
    (sortOther : ∀ c ∈ other, p c = true) (endsOther : p b = false)
    (same : front ++ a :: rest = other ++ b :: more)
    : front = other ∧ a = b ∧ rest = more := by
  have cut {front rest : List Char} {a : Char} (sort : ∀ c ∈ front, p c = true)
      (ends : p a = false)
      : (front ++ a :: rest).takeWhile p = front := by
    rw [List.takeWhile_append_of_pos sort, List.takeWhile_cons_of_neg (by simp [ends]),
      List.append_nil]
  have fronts : front = other := by rw [← cut sort ends, same, cut sortOther endsOther]
  rw [fronts, List.append_cancel_left_eq, List.cons.injEq] at same
  exact ⟨fronts, same⟩

namespace Scheme

/-- The prefixes consist of letters and digits, and they differ. -/
structure Apart (scheme : Scheme) : Prop where
  idPrefix : ∀ c ∈ scheme.idPrefix.toList, c.isAlphanum = true
  journeyPrefix : ∀ c ∈ scheme.journeyPrefix.toList, c.isAlphanum = true
  distinct : scheme.idPrefix ≠ scheme.journeyPrefix

theorem apart_of_compile {config : Config} {limit : Nat} {scheme : Scheme}
    (compiled : config.compileWithin limit = .ok scheme)
    : scheme.Apart := by
  obtain ⟨idPrefix, journeyPrefix, distinct⟩ := Config.prefixes_of_compile compiled
  exact ⟨idPrefix, journeyPrefix, distinct⟩

/-- How the identifiers of a kind start. -/
def start (scheme : Scheme) : NodeKind → String × Char
  | .requirement => (scheme.idPrefix, '-')
  | .assertion => (scheme.idPrefix, '-')
  | .journey => (scheme.journeyPrefix, '-')
  | .code => (NodeKind.code.word, ':')
  | .test => (NodeKind.test.word, ':')

/-- An identifier has the form that identifiers of a kind have. -/
structure Names (scheme : Scheme) (kind : NodeKind) (id : String) : Prop where
  starts
    : ∃ rest, id.toList = (scheme.start kind).1.toList ++ (scheme.start kind).2 :: rest
  requirement : kind = .requirement → scheme.IsId id
  assertion
    : kind = .assertion →
        ∃ (owner : String) (letter : Char),
          scheme.IsId owner ∧ id = assertionId owner letter.toString

variable {scheme : Scheme} {kind other : NodeKind} {id : String}

/-- The words for references consist of letters. -/
theorem isAlphanum_word {kind : NodeKind} (isReference : kind = .code ∨ kind = .test)
    : ∀ c ∈ kind.word.toList, c.isAlphanum = true := by
  rcases isReference with rfl | rfl <;> simp [NodeKind.word, Char.isAlphanum, Char.isAlpha]

theorem Apart.isAlphanum_start (apart : scheme.Apart) (kind : NodeKind)
    : (∀ c ∈ (scheme.start kind).1.toList, c.isAlphanum = true)
      ∧ (scheme.start kind).2.isAlphanum = false := by
  have hyphen : '-'.isAlphanum = false := by decide
  have colon : ':'.isAlphanum = false := by decide
  cases kind with
  | requirement => exact ⟨apart.idPrefix, hyphen⟩
  | assertion => exact ⟨apart.idPrefix, hyphen⟩
  | journey => exact ⟨apart.journeyPrefix, hyphen⟩
  | code => exact ⟨isAlphanum_word (Or.inl rfl), colon⟩
  | test => exact ⟨isAlphanum_word (Or.inr rfl), colon⟩

/-- Only requirements and assertions start alike. -/
theorem Apart.eq_of_start_eq (apart : scheme.Apart) (same : scheme.start kind = scheme.start other)
    : kind = other
      ∨ kind = .requirement ∧ other = .assertion
      ∨ kind = .assertion ∧ other = .requirement := by
  have distinct := apart.distinct
  cases kind <;> cases other
    <;> simp_all [start, NodeKind.word, eq_comm]

/-- An identifier has the form of one kind only. -/
theorem Names.kind_eq (apart : scheme.Apart) (named : scheme.Names kind id)
    (namedOther : scheme.Names other id)
    : kind = other := by
  obtain ⟨rest, written⟩ := named.starts
  obtain ⟨more, writtenOther⟩ := namedOther.starts
  obtain ⟨word, separator, -⟩ := parts_eq_of_append_eq
    (apart.isAlphanum_start kind).1 (apart.isAlphanum_start kind).2
    (apart.isAlphanum_start other).1 (apart.isAlphanum_start other).2
    (written.symm.trans writtenOther)
  have unlettered {id : String} (requirement : scheme.IsId id) {owner : String} {letter : Char}
      (isId : scheme.IsId owner) : id ≠ assertionId owner letter.toString := by
    intro same
    exact not_isId_assertionId isId letter (same ▸ requirement)
  rcases apart.eq_of_start_eq (Prod.ext (String.toList_inj.mp word) separator) with
    same | ⟨isRequirement, isAssertion⟩ | ⟨isAssertion, isRequirement⟩
  · exact same
  · obtain ⟨owner, letter, isId, same⟩ := namedOther.assertion isAssertion
    exact absurd same (unlettered (named.requirement isRequirement) isId)
  · obtain ⟨owner, letter, isId, same⟩ := named.assertion isAssertion
    exact absurd same (unlettered (namedOther.requirement isRequirement) isId)

-----------------------------------------------------------------------------------------
-- The identifiers of nodes
-----------------------------------------------------------------------------------------

theorem IsId.starts (isId : scheme.IsId id)
    : ∃ rest, id.toList = scheme.idPrefix.toList ++ '-' :: rest := by
  obtain ⟨code, digits, written, -⟩ := isId
  exact ⟨code :: digits, written⟩

theorem IsId.names (isId : scheme.IsId id) : scheme.Names .requirement id where
  starts := isId.starts
  requirement _ := isId
  assertion kind := NodeKind.noConfusion kind

theorem IsId.names_assertionId (isId : scheme.IsId id) (letter : Char)
    : scheme.Names .assertion (assertionId id letter.toString) where
  starts := by
    obtain ⟨rest, written⟩ := isId.starts
    refine ⟨rest ++ ['-', letter], ?_⟩
    rw [toList_assertionId, written, List.append_assoc, List.cons_append]
    rfl
  requirement kind := NodeKind.noConfusion kind
  assertion _ := ⟨id, letter, isId, rfl⟩

theorem names_of_takeJourneyId? {s id rest : List Char}
    (taken : scheme.takeJourneyId? s = some (id, rest))
    : scheme.Names .journey (String.ofList id) where
  starts := by
    rw [takeJourneyId?] at taken
    split at taken
    · exact absurd taken (by simp)
    · dsimp only at taken
      split at taken
      · split at taken
        · exact absurd taken (by simp)
        · obtain ⟨rfl, -⟩ := Prod.mk.inj (Option.some.inj taken)
          rw [String.toList_ofList, List.append_assoc]
          exact ⟨_, rfl⟩
      · exact absurd taken (by simp)
  requirement kind := NodeKind.noConfusion kind
  assertion kind := NodeKind.noConfusion kind

/-- The identifier of a reference is its kind's word and the place where it is written. -/
theorem toList_id_referenceNode (kind : NodeKind) (path : String) (block : Block)
    (reference : Reference)
    : (Assembly.referenceNode kind path block reference).id.toList
      = kind.word.toList ++ ':' :: (path.toList ++ ':' :: Nat.toDigits 10 block.startLine) := by
  simp [Assembly.referenceNode, Node.withField, String.toList_append]

theorem names_referenceNode (scheme : Scheme) {kind : NodeKind}
    (isReference : kind = .code ∨ kind = .test) (path : String) (block : Block)
    (reference : Reference)
    : scheme.Names kind (Assembly.referenceNode kind path block reference).id := by
  have written := toList_id_referenceNode kind path block reference
  rcases isReference with rfl | rfl
  · exact ⟨⟨_, written⟩, NodeKind.noConfusion, NodeKind.noConfusion⟩
  · exact ⟨⟨_, written⟩, NodeKind.noConfusion, NodeKind.noConfusion⟩

/-- Every node that a block of a file declares is named as its kind is. -/
theorem names_of_mem_nodesOf {path text : String} {block : Block}
    (member : block ∈ (Registry.standard.parseFile scheme path text).blocks) {node : Node}
    (declared : node ∈ Assembly.nodesOf path block)
    : scheme.Names node.kind node.id := by
  have wellNamed : block.WellNamed scheme := Registry.wellNamed_of_mem_blocks member
  rw [Assembly.nodesOf] at declared
  split at declared
  · next requirement content =>
      have isId := wellNamed.requirement requirement content
      rcases List.mem_cons.mp declared with rfl | lettered
      · obtain ⟨fields, same⟩ := Assembly.requirementNode_eq path block requirement
        rw [same]
        exact isId.names
      · obtain ⟨assertion, -, rfl⟩ := List.mem_map.mp lettered
        exact isId.names_assertionId assertion.letter
  · next journey content =>
      rw [List.mem_singleton.mp declared, Assembly.id_journeyNode,
        (Assembly.journeyNode_parts path block journey).2]
      obtain ⟨claimant, known, free, -, claimed⟩ := Registry.mem_blocks_claim member
      obtain ⟨heading, inner, ⟨line, headed⟩, rfl⟩ :=
        Claim.journey_of_mem_claim known claimed content
      obtain ⟨s, id, rest, taken, same⟩ := Heading.ofParts?_spec headed
      have named := names_of_takeJourneyId? taken
      rw [← same] at named
      exact named
  · rw [List.mem_singleton.mp declared]
    exact names_referenceNode scheme (Or.inl rfl) path block _
  · rw [List.mem_singleton.mp declared]
    exact names_referenceNode scheme (Or.inr rfl) path block _
  · exact absurd declared List.not_mem_nil
  · exact absurd declared List.not_mem_nil

/-- The identifier of a reference tells the file and the line on which it starts. Witness: no
digit of the line is a colon, so the last colon is the one before it. -/
theorem referenceNode_inj {kind other : NodeKind} (isReference : kind = .code ∨ kind = .test)
    (isOther : other = .code ∨ other = .test) {path otherPath : String}
    {block otherBlock : Block} {reference otherReference : Reference}
    (same
      : (Assembly.referenceNode kind path block reference).id
        = (Assembly.referenceNode other otherPath otherBlock otherReference).id)
    : path = otherPath ∧ block.startLine = otherBlock.startLine := by
  have digits (n : Nat) : ∀ c ∈ (Nat.toDigits 10 n).reverse, Char.isDigit c = true := by
    intro c member
    exact Nat.isDigit_of_mem_toDigits (by decide) (by decide) (List.mem_reverse.mp member)
  rw [← String.toList_inj, toList_id_referenceNode, toList_id_referenceNode] at same
  obtain ⟨-, -, places⟩ :=
    parts_eq_of_append_eq (isAlphanum_word isReference) (by decide) (isAlphanum_word isOther)
      (by decide) same
  have backwards := congrArg List.reverse places
  simp only [List.reverse_append, List.reverse_cons, List.append_assoc, List.singleton_append]
    at backwards
  obtain ⟨lines, -, paths⟩ := parts_eq_of_append_eq (digits _) (by decide) (digits _) (by decide)
    backwards
  refine ⟨String.toList_inj.mp (List.reverse_injective paths), ?_⟩
  have numbers := congrArg (fun digits => Nat.ofDigitChars 10 digits 0)
    (List.reverse_injective lines)
  simpa using numbers

end Scheme

end Traceability
