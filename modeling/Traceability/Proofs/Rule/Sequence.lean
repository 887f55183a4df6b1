import Traceability.Proofs.Config.Compile
import Traceability.Proofs.Rule.Findings
import Traceability.Proofs.Rule.Format
import Traceability.Run

/-! Where the letters of a requirement depart from the alphabet.
The rule compares letters and alphabet as far as both go. So it reports a requirement at most once,
at the first position where they differ. It is silent where the letters are a first part of the
alphabet, and also where they go on behind its last letter.
-/

namespace Traceability.Rule

namespace Sequence

-----------------------------------------------------------------------------------------
-- The first departure
-----------------------------------------------------------------------------------------

/-- The letters are the expected ones up to a position, and there they differ. Positions count
from zero. -/
structure DepartsAt (letters expected : List String) (position : Nat) (found wanted : String)
    : Prop where
  before : letters.take position = expected.take position
  here : letters[position]? = some found
  there : expected[position]? = some wanted
  differ : found ≠ wanted

theorem not_departsAt_nil_left {expected : List String} {position : Nat} {found wanted : String}
    : ¬ DepartsAt [] expected position found wanted :=
  fun departs => absurd departs.here (by simp)

theorem not_departsAt_nil_right {letters : List String} {position : Nat} {found wanted : String}
    : ¬ DepartsAt letters [] position found wanted :=
  fun departs => absurd departs.there (by simp)

section Cons

variable {first next : String} {letters expected : List String} {found wanted : String}

theorem departsAt_zero_iff
    : DepartsAt (first :: letters) (next :: expected) 0 found wanted
      ↔ first = found ∧ next = wanted ∧ first ≠ next := by
  constructor
  · rintro ⟨-, here, there, differ⟩
    obtain rfl : first = found := Option.some.inj here
    obtain rfl : next = wanted := Option.some.inj there
    exact ⟨rfl, rfl, differ⟩
  · rintro ⟨rfl, rfl, differ⟩
    exact ⟨rfl, rfl, rfl, differ⟩

theorem departsAt_succ_iff {position : Nat}
    : DepartsAt (first :: letters) (next :: expected) (position + 1) found wanted
      ↔ first = next ∧ DepartsAt letters expected position found wanted := by
  constructor
  · rintro ⟨before, here, there, differ⟩
    rw [List.take_succ_cons, List.take_succ_cons, List.cons.injEq] at before
    rw [List.getElem?_cons_succ] at here there
    exact ⟨before.1, before.2, here, there, differ⟩
  · rintro ⟨rfl, before, here, there, differ⟩
    refine ⟨?_, here, there, differ⟩
    rw [List.take_succ_cons, List.take_succ_cons, before]

end Cons

/-- The departure that the rule finds is the first one. Witness: induction along both lists. -/
theorem firstDeparture?_eq_some_iff {start place : Nat} {letters expected : List String}
    {found wanted : String}
    : firstDeparture? start letters expected = some (place, found, wanted)
      ↔ ∃ position,
          place = start + position ∧ DepartsAt letters expected position found wanted := by
  induction letters generalizing start expected with
  | nil => simp [firstDeparture?, not_departsAt_nil_left]
  | cons first letters ih =>
      cases expected with
      | nil => simp [firstDeparture?, not_departsAt_nil_right]
      | cons next expected =>
          rw [firstDeparture?]
          constructor
          · intro given
            split at given
            · next same =>
                obtain ⟨position, rfl, departs⟩ := ih.mp given
                exact ⟨position + 1, by omega, departsAt_succ_iff.mpr ⟨same, departs⟩⟩
            · next differ =>
                cases given
                exact ⟨0, rfl, departsAt_zero_iff.mpr ⟨rfl, rfl, differ⟩⟩
          · rintro ⟨_ | position, rfl, departs⟩
            · obtain ⟨rfl, rfl, differ⟩ := departsAt_zero_iff.mp departs
              rw [if_neg differ]
            · obtain ⟨same, departs⟩ := departsAt_succ_iff.mp departs
              rw [if_pos same]
              exact ih.mpr ⟨position, by omega, departs⟩

/-- There is only one first departure. -/
theorem DepartsAt.unique {letters expected : List String} {position other : Nat}
    {found wanted foundThere wantedThere : String}
    (departs : DepartsAt letters expected position found wanted)
    (again : DepartsAt letters expected other foundThere wantedThere)
    : position = other ∧ found = foundThere ∧ wanted = wantedThere := by
  have first := firstDeparture?_eq_some_iff.mpr ⟨position, (Nat.zero_add position).symm, departs⟩
  have second := firstDeparture?_eq_some_iff.mpr ⟨other, (Nat.zero_add other).symm, again⟩
  rw [first, Option.some.injEq, Prod.mk.injEq, Prod.mk.injEq] at second
  exact second

-----------------------------------------------------------------------------------------
-- What is reported
-----------------------------------------------------------------------------------------

/-- The error about the letter at a position, which it counts from one. -/
def departureFinding (node : Node) (position : Nat) (found wanted : String) : Finding :=
  node.finding "format.assertion_sequence" .error
    (node.id ++ ": assertion " ++ toString (position + 1) ++ " is labelled " ++ found
      ++ ", expected " ++ wanted)

/-- What the rule says of one requirement. -/
def reportOf (node : Node) : List Finding :=
  ((firstDeparture? 1 (node.list FieldKey.assertions) alphabet).map
    (fun (position, found, wanted) =>
      node.finding "format.assertion_sequence" .error
        (node.id ++ ": assertion " ++ toString position ++ " is labelled " ++ found
          ++ ", expected " ++ wanted))).toList

theorem nodeId_of_mem_reportOf {node : Node} {finding : Finding}
    (member : finding ∈ reportOf node)
    : finding.nodeId = some node.id := by
  obtain ⟨departure, -, rfl⟩ := Option.map_eq_some_iff.mp (Option.mem_toList.mp member)
  rfl

theorem reportOf_eq_nil_iff {node : Node}
    : reportOf node = []
      ↔ node.list FieldKey.assertions <+: alphabet
        ∨ alphabet <+: node.list FieldKey.assertions := by
  rw [reportOf, Option.toList_eq_nil_iff, Option.map_eq_none_iff, firstDeparture?_eq_none_iff]

theorem reportOf_eq_of_ne_nil {node : Node} (some : reportOf node ≠ [])
    : ∃ position found wanted,
        DepartsAt (node.list FieldKey.assertions) alphabet position found wanted
        ∧ reportOf node = [departureFinding node position found wanted] := by
  rw [reportOf] at some ⊢
  cases first : firstDeparture? 1 (node.list FieldKey.assertions) alphabet with
  | none => exact absurd (by rw [first]; rfl) some
  | some departure =>
      obtain ⟨place, found, wanted⟩ := departure
      obtain ⟨position, rfl, departs⟩ := firstDeparture?_eq_some_iff.mp first
      exact ⟨position, found, wanted, departs, by rw [Nat.add_comm 1]; rfl⟩

/-- Letters that are no more than there are in the alphabet do not go on behind its end. -/
theorem prefix_or_prefix_iff_of_length_le {letters : List String}
    (few : letters.length ≤ alphabet.length)
    : letters <+: alphabet ∨ alphabet <+: letters ↔ letters <+: alphabet := by
  refine ⟨fun given => ?_, Or.inl⟩
  rcases given with part | whole
  · exact part
  · rw [whole.eq_of_length_le few]

end Sequence

open Sequence in
/-- A requirement is reported at most once, as an error at the first position where its letters
depart from the alphabet. It is not reported exactly if its letters are a first part of the alphabet
or go on behind its end; of up to 26 letters, exactly if they are a first part of it. Nothing but
requirements is reported. -/
theorem assertionSequence_check_exact (context : RuleContext)
    : let findings := assertionSequence.check context
      (∀ node ∈ context.graph.requirements,
        let letters := node.list FieldKey.assertions
        let reported := findingsAbout findings node.id
        (reported = [] ↔ letters <+: alphabet ∨ alphabet <+: letters)
        ∧ (letters.length ≤ 26 → (reported = [] ↔ letters <+: alphabet))
        ∧ (reported ≠ [] →
            ∃ position found wanted,
              DepartsAt letters alphabet position found wanted
              ∧ reported = [departureFinding node position found wanted]))
      ∧ ∀ finding ∈ findings,
          ∃ node ∈ context.graph.requirements, finding.nodeId = some node.id := by
  intro findings
  have listed : findings = context.graph.requirements.flatMap reportOf :=
    List.filterMap_eq_flatMap_toList _ _
  have own (node : Node) (finding : Finding) (member : finding ∈ reportOf node) :=
    nodeId_of_mem_reportOf member
  refine ⟨fun node member => ?_, fun finding member => ?_⟩
  · intro letters reported
    have about : reported = reportOf node :=
      (congrArg (findingsAbout · node.id) listed).trans (findingsAbout_requirements own member)
    rw [about]
    refine ⟨reportOf_eq_nil_iff, fun few => ?_, reportOf_eq_of_ne_nil⟩
    exact reportOf_eq_nil_iff.trans (prefix_or_prefix_iff_of_length_le few)
  · obtain ⟨node, present, reported⟩ := List.mem_flatMap.mp (listed ▸ member)
    exact ⟨node, present, own node finding reported⟩

/-- A requirement whose second and third letters stand in each other's place. -/
def swappedLetters : SourceSet where
  files := [
    ⟨"login.md", "# REQ-p00001: Login\nA. Ask.\nC. Tell.\nB. Open.\n*End* *Login*\n"⟩]

open Sequence in
theorem assertionSequence_check_exact_swappedLetters
    : let graph := Graph.ofSources Config.defaultScheme swappedLetters
      let findings := assertionSequence.check ⟨graph, Config.defaultScheme, graph.coverage⟩
      ∃ node ∈ graph.requirements,
        node.list FieldKey.assertions = ["A", "C", "B"]
        ∧ findingsAbout findings node.id = [departureFinding node 1 "C" "B"] := by
  intro graph findings
  have evaluated
      : ∃ node ∈ graph.requirements, node.list FieldKey.assertions = ["A", "C", "B"] := by
    decide +kernel
  obtain ⟨node, member, letters⟩ := evaluated
  obtain ⟨silent, -, reported⟩ :=
    (assertionSequence_check_exact ⟨graph, Config.defaultScheme, graph.coverage⟩).1 node member
  have departs : DepartsAt (node.list FieldKey.assertions) alphabet 1 "C" "B" :=
    letters ▸ ⟨by decide, rfl, rfl, by decide⟩
  have some : findingsAbout findings node.id ≠ [] :=
    fun none => absurd (letters ▸ silent.mp none) (by decide)
  obtain ⟨position, found, wanted, first, single⟩ := reported some
  obtain ⟨rfl, rfl, rfl⟩ := departs.unique first
  exact ⟨node, member, letters, single⟩

/-- A requirement that starts again with the first letter behind the last one. -/
def startedAgain : SourceSet where
  files := [
    ⟨"login.md", "# REQ-p00001: Login\n"
      ++ "A. -\nB. -\nC. -\nD. -\nE. -\nF. -\nG. -\nH. -\nI. -\nJ. -\n"
      ++ "K. -\nL. -\nM. -\nN. -\nO. -\nP. -\nQ. -\nR. -\nS. -\n"
      ++ "T. -\nU. -\nV. -\nW. -\nX. -\nY. -\nZ. -\n"
      ++ "A. -\n*End* *Login*\n"⟩]

/-- The letters are no first part of the alphabet, but nothing is reported. -/
theorem not_reported_startedAgain
    : let graph := Graph.ofSources Config.defaultScheme startedAgain
      ∃ node ∈ graph.requirements,
        node.list FieldKey.assertions = Sequence.alphabet ++ ["A"]
        ∧ ¬ node.list FieldKey.assertions <+: Sequence.alphabet
        ∧ assertionSequence.check ⟨graph, Config.defaultScheme, graph.coverage⟩ = [] := by
  decide +kernel

end Traceability.Rule
