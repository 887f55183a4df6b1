import Traceability.Proofs.Claim.Invariance
import Traceability.Proofs.Config.Compile
import Traceability.Proofs.Graph.Origin
import Traceability.Proofs.Repair.Replacement
import Traceability.Proofs.Repair.Rewrite

/-! Planned changes of a file.
Each change is that of one requirement and names the line of its closing marker, which is no
other's. All changes find their markers, and turn them into markers with the computed hash.
-/

namespace Traceability.HashUpdate

open Text Rewrite

/-- All hashes that requirements store may have been computed at some permitted length. -/
def StoredProducible (graph : Graph) : Prop :=
  ∀ node ∈ graph.requirements, ∀ hash, node.text? FieldKey.hash = some hash →
    BodyHash.Producible hash

instance (graph : Graph) : Decidable (StoredProducible graph) :=
  decidable_of_iff
    (∀ node ∈ graph.requirements,
      (node.text? FieldKey.hash).all (fun hash => decide (BodyHash.Producible hash)) = true)
    (by simp only [StoredProducible, Option.all_eq_true, decide_eq_true_eq])

-----------------------------------------------------------------------------------------
-- The changes of a plan
-----------------------------------------------------------------------------------------

/-- A change of a requirement is about its closing marker, and there is one unless the hash is
valid. -/
theorem ofNode?_eq_some_iff {length : Nat} {node : Node} {update : HashUpdate}
    : ofNode? length node = some update
      ↔ BodyHash.verify ((node.text? FieldKey.body).getD "") (node.text? FieldKey.hash) length
            ≠ .valid
        ∧ update
          = { path := node.source.path
              id := node.id
              line := node.closingLine.number
              anchor := node.closingLine.text
              stored := node.text? FieldKey.hash
              computed := BodyHash.compute ((node.text? FieldKey.body).getD "") length } := by
  rw [ofNode?]
  split
  · next valid => exact iff_of_false (by simp) (fun both => both.1 valid)
  · next invalid =>
      rw [Option.some.injEq]
      exact ⟨fun same => ⟨invalid, same.symm⟩, fun both => both.2.symm⟩

theorem mem_plan_iff {graph : Graph} {length : Nat} {update : HashUpdate}
    : update ∈ plan graph length
      ↔ ∃ node ∈ graph.requirements, ofNode? length node = some update :=
  List.mem_filterMap

theorem producible_of_mem_plan {graph : Graph} {length : Nat} (long : 4 ≤ length)
    (short : length ≤ 64)
    : ∀ update ∈ plan graph length, BodyHash.Producible update.computed := by
  intro update member
  obtain ⟨node, -, planned⟩ := mem_plan_iff.mp member
  obtain ⟨-, rfl⟩ := ofNode?_eq_some_iff.mp planned
  exact BodyHash.producible_compute _ long short

variable {scheme : Scheme} {path text : String} {length : Nat}

/-- No two changes are of one line, since no two requirements close on one line. -/
theorem plan_nodup
    : ((plan (Graph.ofText scheme path text) length).map HashUpdate.line).Nodup := by
  have requirements := (Graph.ofText scheme path text).nodesOfKind_ordered .requirement
  have apart
      : (Graph.ofText scheme path text).requirements.Pairwise
          (fun a b => a.closingLine.number ≠ b.closingLine.number) := by
    refine requirements.imp_of_mem (fun {a b} memberA memberB below same => ?_)
    rw [Graph.eq_of_closingLine memberA memberB same] at below
    exact absurd below (String.lt_irrefl _)
  rw [List.Nodup, List.pairwise_map, plan, List.pairwise_filterMap]
  refine apart.imp (fun {a b} distinct update planned other plannedToo => ?_)
  obtain ⟨-, rfl⟩ := ofNode?_eq_some_iff.mp planned
  obtain ⟨-, rfl⟩ := ofNode?_eq_some_iff.mp plannedToo
  exact distinct

-----------------------------------------------------------------------------------------
-- Changes of closing markers
-----------------------------------------------------------------------------------------

/-- A requirement records the hash on its closing marker. -/
theorem exists_marker {node : Node} {block : Block}
    (origin : node.Origin scheme path text block)
    : ∃ marker,
        ClosingMarker.ofLine? node.closingLine.text = some marker
        ∧ node.text? FieldKey.hash = marker.hash? := by
  obtain ⟨marker, read⟩ := Option.isSome_iff_exists.mp origin.closes
  refine ⟨marker, read, ?_⟩
  rw [Node.text?, origin.hash, read, Option.bind_some]
  cases marker.hash? <;> rfl

/-- The hash of each planned marker can be replaced, and the marker stays a closing marker. -/
theorem exists_replaced (stored : StoredProducible (Graph.ofText scheme path text))
    (long : 4 ≤ length) (short : length ≤ 64) {node : Node}
    (member : node ∈ (Graph.ofText scheme path text).requirements) {update : HashUpdate}
    (planned : ofNode? length node = some update)
    : ∃ replaced,
        replaceHash? update.anchor.toList (update.stored.map String.toList)
            update.computed.toList
          = some replaced
        ∧ ClosingMarker.Rehashed update.computed node.closingLine.text
            (String.ofList replaced) := by
  obtain ⟨block, origin⟩ := Graph.exists_origin member
  obtain ⟨marker, read, hash⟩ := exists_marker origin
  obtain ⟨-, rfl⟩ := ofNode?_eq_some_iff.mp planned
  have producible := stored node member
  rw [hash] at producible ⊢
  exact ClosingMarker.replaceHash?_marker read producible
    (BodyHash.producible_compute _ long short)

theorem located_of_mem_plan (feeds : FeedsAfterReturns text.toList)
    (stored : StoredProducible (Graph.ofText scheme path text)) (long : 4 ≤ length)
    (short : length ≤ 64)
    : ∀ update ∈ plan (Graph.ofText scheme path text) length,
        Located (pieces text.toList) update := by
  intro update planned
  obtain ⟨node, member, change⟩ := mem_plan_iff.mp planned
  obtain ⟨block, origin⟩ := Graph.exists_origin member
  obtain ⟨replaced, read, -⟩ := exists_replaced stored long short member change
  have line := origin.line
  rw [Line.ofText_eq feeds] at line
  obtain ⟨positive, here⟩ := Line.getElem?_of_mem_numbered line
  rw [List.getElem?_map] at here
  obtain ⟨-, rfl⟩ := ofNode?_eq_some_iff.mp change
  exact ⟨positive, here, ⟨replaced, read⟩⟩

/-- The planned changes of a file, line by line. -/
def edit (scheme : Scheme) (path text : String) (length : Nat) (line : Line) : Line :=
  line.revise (reviseAll (plan (Graph.ofText scheme path text) length))

/-- A planned marker becomes a marker with the computed hash. -/
theorem rehashed_of_planned (stored : StoredProducible (Graph.ofText scheme path text))
    (long : 4 ≤ length) (short : length ≤ 64) {node : Node}
    (member : node ∈ (Graph.ofText scheme path text).requirements) {update : HashUpdate}
    (planned : ofNode? length node = some update)
    : ClosingMarker.Rehashed update.computed node.closingLine.text
        (edit scheme path text length node.closingLine).text := by
  obtain ⟨replaced, read, rehashed⟩ := exists_replaced stored long short member planned
  have listed := mem_plan_iff.mpr ⟨node, member, planned⟩
  have revised := reviseAll_of_mem plan_nodup listed node.closingLine.text.toList
  obtain ⟨-, rfl⟩ := ofNode?_eq_some_iff.mp planned
  rw [revise, if_pos rfl, read, Option.getD_some] at revised
  rw [edit, Line.revise, revised]
  exact rehashed

/-- Only closing markers of requirements with a planned change are changed. -/
theorem exists_planned {line : Line} (member : line ∈ Line.ofText text)
    (changed : edit scheme path text length line ≠ line)
    : ∃ node ∈ (Graph.ofText scheme path text).requirements, ∃ update,
        ofNode? length node = some update ∧ node.closingLine = line := by
  have recorded
      : line.number ∈ (plan (Graph.ofText scheme path text) length).map HashUpdate.line := by
    by_contra other
    exact changed (Line.revise_of_not_mem other)
  obtain ⟨update, planned, number⟩ := List.mem_map.mp recorded
  obtain ⟨node, own, change⟩ := mem_plan_iff.mp planned
  obtain ⟨block, origin⟩ := Graph.exists_origin own
  refine ⟨node, own, update, change, ?_⟩
  obtain ⟨-, rfl⟩ := ofNode?_eq_some_iff.mp change
  exact List.inj_on_of_nodup_map (Line.ascending_ofText text).nodup origin.line member number

theorem reclosing_edit (stored : StoredProducible (Graph.ofText scheme path text))
    (long : 4 ≤ length) (short : length ≤ 64)
    : Reclosing (edit scheme path text length) (Line.ofText text) where
  number _ := rfl
  marker line member changed := by
    obtain ⟨node, own, update, planned, rfl⟩ := exists_planned member changed
    have rehashed := rehashed_of_planned stored long short own planned
    obtain ⟨marker, before, after⟩ := rehashed.reads
    constructor
    · rw [Claim.closesBlock, before, Option.isSome_some]
    · rw [Claim.closesBlock, after, Option.isSome_some]
    · exact rehashed.closes

end Traceability.HashUpdate
