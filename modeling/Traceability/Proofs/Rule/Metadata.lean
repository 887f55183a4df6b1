import Traceability.Rule.Format

/-! What is found on the metadata line of a requirement.
The line may be absent, a field of it missing, the status unknown, and the level unknown or another
than that of the identifier.
-/

namespace Traceability.Rule.Metadata

def absentFinding (node : Node) : Finding :=
  node.finding "format.missing_metadata" .error
    (node.id ++ " has no **Level**/**Status** metadata line")

def missingFinding (node : Node) (key : String) : Finding :=
  node.finding "format.missing_field" .error (node.id ++ " metadata is missing " ++ key)

def unknownStatusFinding (node : Node) (status : String) : Finding :=
  node.finding "format.unknown_status" .warning
    (node.id ++ " has unknown status '" ++ status ++ "'")

def unknownLevelFinding (node : Node) (name : String) : Finding :=
  node.finding "format.level_mismatch" .error
    (node.id ++ " declares unknown level '" ++ name ++ "'")

/-- The level that is declared is not the one in the identifier. -/
def otherLevelFinding (node : Node) (declared encoded : Level) : Finding :=
  node.finding "format.level_mismatch" .error
    (node.id ++ " declares level " ++ declared.name ++ " but its ID encodes " ++ encoded.name)

/-- What there is to find about a requirement. -/
inductive Reported (scheme : Scheme) (node : Node) : Finding → Prop where
  | absent (none : ¬ node.flag FieldKey.hasMetadata = true)
    : Reported scheme node (absentFinding node)
  | missing {key : String} (present : node.flag FieldKey.hasMetadata = true)
      (required : key ∈ [FieldKey.level, FieldKey.status]) (empty : filled? node key = none)
    : Reported scheme node (missingFinding node key)
  | unknownStatus {status : String} (present : node.flag FieldKey.hasMetadata = true)
      (filled : filled? node FieldKey.status = some status)
      (unknown : ¬ scheme.isKnownStatus status = true)
    : Reported scheme node (unknownStatusFinding node status)
  | unknownLevel {name : String} (present : node.flag FieldKey.hasMetadata = true)
      (filled : filled? node FieldKey.level = some name)
      (unknown : scheme.levelByName? name = none)
    : Reported scheme node (unknownLevelFinding node name)
  | otherLevel {name : String} {declared encoded : Level}
      (present : node.flag FieldKey.hasMetadata = true)
      (filled : filled? node FieldKey.level = some name)
      (known : scheme.levelByName? name = some declared)
      (coded
        : (scheme.parseId? node.id).bind (fun parts => scheme.levelByCode? parts.levelCode)
          = some encoded)
      (differ : declared.code ≠ encoded.code)
    : Reported scheme node (otherLevelFinding node declared encoded)

variable {scheme : Scheme} {node : Node} {finding : Finding}

theorem missingField?_eq_some_iff {key : String}
    : missingField? node key = some finding
      ↔ filled? node key = none ∧ missingFinding node key = finding := by
  rw [missingField?]
  cases filled? node key with
  | none => simp [missingFinding]
  | some text => simp

theorem unknownStatus?_eq_some_iff
    : unknownStatus? scheme node = some finding
      ↔ ∃ status,
          filled? node FieldKey.status = some status
          ∧ ¬ scheme.isKnownStatus status = true
          ∧ unknownStatusFinding node status = finding := by
  rw [unknownStatus?, Option.bind_eq_bind, Option.bind_eq_some_iff]
  refine exists_congr (fun status => and_congr_right (fun _ => ?_))
  split
  · next known => simp [known]
  · next unknown => simp [unknown, unknownStatusFinding]

theorem levelMismatch?_eq_some_iff
    : levelMismatch? scheme node = some finding
      ↔ ∃ name,
          filled? node FieldKey.level = some name
          ∧ (scheme.levelByName? name = none ∧ unknownLevelFinding node name = finding
            ∨ ∃ declared encoded,
                scheme.levelByName? name = some declared
                ∧ (scheme.parseId? node.id).bind (fun parts => scheme.levelByCode? parts.levelCode)
                  = some encoded
                ∧ declared.code ≠ encoded.code
                ∧ otherLevelFinding node declared encoded = finding) := by
  rw [levelMismatch?, Option.bind_eq_bind, Option.bind_eq_some_iff]
  refine exists_congr (fun name => and_congr_right (fun _ => ?_))
  cases scheme.levelByName? name with
  | none => simp [unknownLevelFinding]
  | some declared =>
      cases (scheme.parseId? node.id).bind (fun parts => scheme.levelByCode? parts.levelCode) with
      | none => simp
      | some encoded =>
          by_cases same : declared.code = encoded.code
          · simp [same]
          · simp [same, otherLevelFinding]

/-- The rule reports what there is to find, and nothing else. -/
theorem mem_findings_iff : finding ∈ findings scheme node ↔ Reported scheme node finding := by
  rw [findings]
  split
  · next present =>
      simp only [List.mem_filterMap, id_eq, exists_eq_right, List.mem_cons, List.not_mem_nil,
        or_false]
      constructor
      · rintro (noLevel | noStatus | status | level)
        · obtain ⟨empty, rfl⟩ := missingField?_eq_some_iff.mp noLevel.symm
          exact .missing present List.mem_cons_self empty
        · obtain ⟨empty, rfl⟩ := missingField?_eq_some_iff.mp noStatus.symm
          exact .missing present (List.mem_cons_of_mem _ List.mem_cons_self) empty
        · obtain ⟨name, filled, unknown, rfl⟩ := unknownStatus?_eq_some_iff.mp status.symm
          exact .unknownStatus present filled unknown
        · obtain ⟨name, filled, ⟨unknown, rfl⟩ | ⟨declared, encoded, known, coded, differ, rfl⟩⟩ :=
            levelMismatch?_eq_some_iff.mp level.symm
          · exact .unknownLevel present filled unknown
          · exact .otherLevel present filled known coded differ
      · intro reported
        cases reported with
        | absent none => exact absurd present none
        | missing _ required empty =>
            have made := missingField?_eq_some_iff.mpr ⟨empty, rfl⟩
            rcases List.mem_cons.mp required with rfl | required
            · exact Or.inl made.symm
            · obtain rfl := List.mem_singleton.mp required
              exact Or.inr (Or.inl made.symm)
        | unknownStatus _ filled unknown =>
            exact Or.inr (Or.inr (Or.inl
              (unknownStatus?_eq_some_iff.mpr ⟨_, filled, unknown, rfl⟩).symm))
        | unknownLevel _ filled unknown =>
            exact Or.inr (Or.inr (Or.inr
              (levelMismatch?_eq_some_iff.mpr ⟨_, filled, Or.inl ⟨unknown, rfl⟩⟩).symm))
        | otherLevel _ filled known coded differ =>
            exact Or.inr (Or.inr (Or.inr (levelMismatch?_eq_some_iff.mpr
              ⟨_, filled, Or.inr ⟨_, _, known, coded, differ, rfl⟩⟩).symm))
  · next none =>
      rw [List.mem_singleton]
      constructor
      · rintro rfl
        exact .absent none
      · intro reported
        cases reported with
        | absent _ => rfl
        | missing present _ _ | unknownStatus present _ _ | unknownLevel present _ _
        | otherLevel present _ _ _ _ => exact absurd present none

theorem Reported.nodeId_eq (reported : Reported scheme node finding)
    : finding.nodeId = some node.id := by
  cases reported <;> rfl

/-- A level is unknown exactly if it is declared and no level has that name. -/
theorem exists_unknownLevel_reported_iff
    : (∃ name, Reported scheme node (unknownLevelFinding node name))
      ↔ node.flag FieldKey.hasMetadata = true
        ∧ ∃ name,
            filled? node FieldKey.level = some name ∧ scheme.levelByName? name = none := by
  constructor
  · rintro ⟨name, reported⟩
    generalize same : unknownLevelFinding node name = finding at reported
    cases reported with
    | absent _ | missing _ _ _ | unknownStatus _ _ _ =>
        simp [unknownLevelFinding, absentFinding, missingFinding, unknownStatusFinding,
          Node.finding] at same
    | unknownLevel present filled unknown => exact ⟨present, _, filled, unknown⟩
    | otherLevel _ _ _ _ _ =>
        -- The messages part at the word behind the identifier and its verb.
        have messages := congrArg (fun finding : Finding => finding.message.toList) same
        simp [unknownLevelFinding, otherLevelFinding, Node.finding] at messages
  · rintro ⟨present, name, filled, unknown⟩
    exact ⟨name, .unknownLevel present filled unknown⟩

theorem exists_unknownStatus_reported_iff
    : (∃ status, Reported scheme node (unknownStatusFinding node status))
      ↔ node.flag FieldKey.hasMetadata = true
        ∧ ∃ status,
            filled? node FieldKey.status = some status
            ∧ ¬ scheme.isKnownStatus status = true := by
  constructor
  · rintro ⟨status, reported⟩
    generalize same : unknownStatusFinding node status = finding at reported
    cases reported with
    | absent _ | missing _ _ _ | unknownLevel _ _ _ | otherLevel _ _ _ _ _ =>
        simp [unknownStatusFinding, absentFinding, missingFinding, unknownLevelFinding,
          otherLevelFinding, Node.finding] at same
    | unknownStatus present filled unknown => exact ⟨present, _, filled, unknown⟩
  · rintro ⟨present, status, filled, unknown⟩
    exact ⟨status, .unknownStatus present filled unknown⟩

end Traceability.Rule.Metadata
