import Traceability.Proofs.Graph.Assembly
import Traceability.Proofs.Rule.Metadata
import Traceability.Proofs.Rule.Report
import Traceability.Proofs.Scheme.Reading

/-! What the rules on the writing of requirements find. -/

namespace Traceability

-----------------------------------------------------------------------------------------
-- Assertion letters
-----------------------------------------------------------------------------------------

namespace Rule.Sequence

/-- Letters depart from the expected ones unless one of the lists continues the other. -/
theorem firstDeparture?_eq_none_iff (position : Nat) (letters expected : List String)
    : firstDeparture? position letters expected = none
      ↔ letters <+: expected ∨ expected <+: letters := by
  induction letters generalizing position expected with
  | nil => simp [firstDeparture?]
  | cons found letters ih =>
      cases expected with
      | nil => simp [firstDeparture?]
      | cons wanted expected =>
          rw [firstDeparture?, List.cons_prefix_cons, List.cons_prefix_cons]
          split
          · next same =>
              rw [ih]
              simp [same]
          · next distinct => simp [distinct, Ne.symm distinct]

/-- The expected letters are the capital letters. -/
theorem mem_alphabet {letter : String} (capital : Graph.isCapital letter)
    : letter ∈ alphabet := by
  obtain ⟨c, upper, rfl⟩ := capital
  simp only [Char.isUpper, decide_eq_true_eq] at upper
  have low : 'A'.toNat ≤ c.toNat := upper.1
  have high : c.toNat ≤ 'Z'.toNat := upper.2
  refine List.mem_map.mpr ⟨c.toNat - 'A'.toNat, ?_, ?_⟩
  · rw [List.mem_range]
    have size : 'Z'.toNat - 'A'.toNat < 26 := by decide
    omega
  · rw [Nat.add_sub_cancel' low, Char.ofNat_toNat]

/-- Distinct capital letters do not go on behind the last one, so they agree with the expected
letters only as a part of them. -/
theorem prefix_or_prefix_iff {letters : List String} (nodup : letters.Nodup)
    (capital : ∀ letter ∈ letters, Graph.isCapital letter)
    : letters <+: alphabet ∨ alphabet <+: letters ↔ letters <+: alphabet := by
  refine ⟨?_, Or.inl⟩
  intro given
  rcases given with part | whole
  · exact part
  · have fits : letters.length ≤ alphabet.length :=
      (nodup.subperm (fun letter member => mem_alphabet (capital letter member))).length_le
    rw [whole.eq_of_length_le fits]

end Rule.Sequence

namespace Rule

theorem silent_assertionSequence_iff {context : RuleContext}
    (assembled : context.graph.Assembled) (unique : context.graph.duplicates = [])
    (distinct : context.graph.DistinctLetters)
    : Silent context assertionSequence
      ↔ ∀ node ∈ context.graph.requirements,
          node.list FieldKey.assertions <+: Sequence.alphabet := by
  rw [Silent, assertionSequence]
  simp only
  rw [Finding.filterMap_not_decisive_iff]
  refine forall₂_congr (fun node member => ?_)
  obtain ⟨found, kind⟩ := Graph.mem_nodesOfKind_iff.mp member
  have kept := Graph.bare?_of_node? found
  rw [Finding.quiet_map_iff (fun _ => Node.decisive_finding_iff.mpr rfl),
    Sequence.firstDeparture?_eq_none_iff]
  exact Sequence.prefix_or_prefix_iff (distinct unique node.id node.bare kept kind)
    (assembled.capital node.id node.bare kept kind)

-----------------------------------------------------------------------------------------
-- Metadata
-----------------------------------------------------------------------------------------

namespace Metadata

/-- A metadata line with a status and a known level, which is that of the identifier if the
identifier is well formed. -/
structure Complete (scheme : Scheme) (node : Node) : Prop where
  present : node.flag FieldKey.hasMetadata = true
  status
    : ∃ status,
        node.text? FieldKey.status = some status ∧ Text.trim status.toList ≠ []
  level
    : ∃ name declared,
        node.text? FieldKey.level = some name
        ∧ Text.trim name.toList ≠ []
        ∧ scheme.levelByName? name = some declared
        ∧ ∀ parts, scheme.parseId? node.id = some parts → declared.code = parts.levelCode

theorem filled?_eq_some_iff {node : Node} {key text : String}
    : filled? node key = some text
      ↔ node.text? key = some text ∧ Text.trim text.toList ≠ [] := by
  rw [filled?, Option.filter_eq_some_iff, decide_eq_true_eq]

/-- The code in a well-formed identifier is that of a level. -/
theorem levelByCode?_of_parseId? {scheme : Scheme} {id : String} {parts : Identifier}
    (parsed : scheme.parseId? id = some parts)
    : ∃ level, scheme.levelByCode? parts.levelCode = some level ∧ level.code = parts.levelCode := by
  obtain ⟨⟨code, digits, rest⟩, taken, parsed⟩ := Option.bind_eq_some_iff.mp parsed
  obtain ⟨letters, -, parsed⟩ := Option.bind_eq_some_iff.mp parsed
  obtain ⟨number, -, parsed⟩ := Option.bind_eq_some_iff.mp parsed
  obtain rfl := Option.some.inj parsed
  obtain ⟨after, -, listed, -⟩ := Scheme.takePrefixed?_eq_some_iff.mp taken
  exact Scheme.levelByCode?_of_mem listed

/-- The checks of a metadata line find no error exactly if it is complete. An unknown status is a
warning only. -/
theorem findings_not_decisive_iff {scheme : Scheme} {node : Node}
    : (∀ finding ∈ findings scheme node, ¬ finding.Decisive) ↔ Complete scheme node := by
  constructor
  · intro quiet
    have noError {rule message : String}
        (reported : Reported scheme node (node.finding rule .error message))
        : False :=
      quiet _ (mem_findings_iff.mpr reported) (Node.decisive_finding_iff.mpr rfl)
    have present : node.flag FieldKey.hasMetadata = true :=
      of_not_not (fun none => noError (.absent none))
    have filled {key : String} (required : key ∈ [FieldKey.level, FieldKey.status])
        : ∃ text, filled? node key = some text :=
      Option.ne_none_iff_exists'.mp (fun empty => noError (.missing present required empty))
    obtain ⟨status, filledStatus⟩ := filled (List.mem_cons_of_mem _ List.mem_cons_self)
    obtain ⟨name, filledLevel⟩ := filled List.mem_cons_self
    obtain ⟨declared, known⟩ : ∃ declared, scheme.levelByName? name = some declared :=
      Option.ne_none_iff_exists'.mp (fun unknown =>
        noError (.unknownLevel present filledLevel unknown))
    obtain ⟨hasName, notBlank⟩ := filled?_eq_some_iff.mp filledLevel
    refine {
      present
      status := ⟨status, filled?_eq_some_iff.mp filledStatus⟩
      level := ⟨name, declared, hasName, notBlank, known, fun parts parsed => ?_⟩
    }
    obtain ⟨encoded, found, code⟩ := levelByCode?_of_parseId? parsed
    have coded
        : (scheme.parseId? node.id).bind (fun parts => scheme.levelByCode? parts.levelCode)
          = some encoded := by
      rw [parsed, Option.bind_some, found]
    exact of_not_not (fun differ =>
      noError (.otherLevel present filledLevel known coded (code ▸ differ)))
  · intro complete finding member decisive
    obtain ⟨status, hasStatus⟩ := complete.status
    obtain ⟨name, declared, hasName, notBlank, known, agrees⟩ := complete.level
    have filledStatus := filled?_eq_some_iff.mpr hasStatus
    have filledLevel := filled?_eq_some_iff.mpr ⟨hasName, notBlank⟩
    cases mem_findings_iff.mp member with
    | absent none => exact none complete.present
    | missing _ required empty =>
        rcases List.mem_cons.mp required with rfl | required
        · exact absurd (filledLevel.symm.trans empty) (by simp)
        · obtain rfl := List.mem_singleton.mp required
          exact absurd (filledStatus.symm.trans empty) (by simp)
    | unknownStatus _ _ _ => exact Severity.noConfusion (Node.decisive_finding_iff.mp decisive)
    | unknownLevel _ filled unknown =>
        obtain rfl := Option.some.inj (filledLevel.symm.trans filled)
        exact absurd (known.symm.trans unknown) (by simp)
    | otherLevel _ filled other coded differ =>
        obtain rfl := Option.some.inj (filledLevel.symm.trans filled)
        obtain rfl := Option.some.inj (known.symm.trans other)
        obtain ⟨parts, parsed, found⟩ := Option.bind_eq_some_iff.mp coded
        obtain ⟨level, there, code⟩ := levelByCode?_of_parseId? parsed
        obtain rfl := Option.some.inj (there.symm.trans found)
        exact differ ((agrees parts parsed).trans code.symm)

end Metadata

theorem silent_metadata_iff {context : RuleContext}
    : Silent context metadata
      ↔ ∀ node ∈ context.graph.requirements, Metadata.Complete context.scheme node := by
  rw [Silent, metadata, List.forall_mem_flatMap]
  simp only [Metadata.findings_not_decisive_iff]

-----------------------------------------------------------------------------------------
-- Stored hashes
-----------------------------------------------------------------------------------------

/-- A missing hash is a warning only. -/
theorem StoredHash.quiet_finding?_iff {length : Nat} {node : Node}
    : Finding.Quiet (StoredHash.finding? length node)
      ↔ ∀ stored, node.text? FieldKey.hash = some stored →
          Text.sameIgnoringCase stored
              (BodyHash.compute ((node.text? FieldKey.body).getD "") length)
            = true := by
  rw [StoredHash.finding?]
  cases node.text? FieldKey.hash with
  | none => simp [BodyHash.verify, Finding.quiet_some_iff, Node.decisive_finding_iff]
  | some stored =>
      by_cases same : Text.sameIgnoringCase stored
          (BodyHash.compute ((node.text? FieldKey.body).getD "") length) = true
      · simp [BodyHash.verify, same, Finding.quiet_none]
      · simp [BodyHash.verify, same, Finding.quiet_some_iff, Node.decisive_finding_iff]

theorem silent_storedHash_iff {context : RuleContext}
    : Silent context storedHash
      ↔ ∀ node ∈ context.graph.requirements, ∀ stored,
          node.text? FieldKey.hash = some stored →
            Text.sameIgnoringCase stored
                (BodyHash.compute ((node.text? FieldKey.body).getD "") context.scheme.hashLength)
              = true := by
  rw [Silent, storedHash]
  simp only [Finding.filterMap_not_decisive_iff, StoredHash.quiet_finding?_iff]

end Rule

end Traceability
