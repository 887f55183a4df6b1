import Traceability.Proofs.Repair.Plan
import Traceability.Rule.Format

/-! Updating the stored hashes of a file settles them.
The planned changes can all be made. What is read from the rewritten file differs from what was
read before in the changed markers alone, so that all hashes are valid and no change is left.
-/

namespace Traceability.HashUpdate

open Text Rewrite

variable {scheme : Scheme} {path text : String} {length : Nat}

/-- The planned changes are made, and turn the graph of the file into that of the changed
markers. -/
theorem exists_rewritten (feeds : FeedsAfterReturns text.toList)
    (stored : StoredProducible (Graph.ofText scheme path text)) (long : 4 ≤ length)
    (short : length ≤ 64)
    : ∃ rewritten,
        rewrite path text (plan (Graph.ofText scheme path text) length) = .ok rewritten
        ∧ (Graph.ofText scheme path text).Revised (Node.reclose (edit scheme path text length))
            (Graph.ofText scheme path rewritten)
        ∧ (Graph.ofText scheme path rewritten).roots = (Graph.ofText scheme path text).roots := by
  have located := located_of_mem_plan feeds stored long short
  obtain ⟨rewritten, done, lines⟩ := rewrite_eq path feeds plan_nodup located
    (producible_of_mem_plan long short)
  have changed
      : Line.ofText rewritten = (Line.ofText text).map (edit scheme path text length) := lines
  have blocks
      : (Registry.standard.parseFile scheme path rewritten).blocks.map Block.bare
        = (Registry.standard.parseFile scheme path text).blocks.map
            (Block.reclose (edit scheme path text length)) := by
    have ascending := Line.ascending_ofText text
    simp only [Registry.parseFile, changed]
    refine Registry.blocks_map ascending (reclosing_edit stored long short) ?_
    intro line member changed
    obtain ⟨node, own, update, -, rfl⟩ := exists_planned member changed
    obtain ⟨block, origin⟩ := Graph.exists_origin own
    obtain ⟨requirement, content, -⟩ := origin.requirement
    refine ⟨block, origin.mem, requirement, content, ?_⟩
    rw [Block.includes_iff, ← origin.ends]
    exact ⟨Registry.mem_blocks_nonempty ascending origin.mem, Nat.le_refl _⟩
  exact ⟨rewritten, done, Graph.reclosed_assemble scheme rfl blocks⟩

-----------------------------------------------------------------------------------------
-- The requirements of the rewritten file
-----------------------------------------------------------------------------------------

/-- A requirement without a planned change keeps its closing marker. -/
theorem reclose_of_valid {node : Node}
    (member : node ∈ (Graph.ofText scheme path text).requirements)
    (none' : ofNode? length node = none)
    : node.reclose (edit scheme path text length) = node := by
  obtain ⟨block, origin⟩ := Graph.exists_origin member
  refine Node.reclose_of_fixed ?_ origin.marker origin.hash
  by_contra changed
  obtain ⟨other, own, update, planned, same⟩ := exists_planned origin.line changed
  rw [Graph.eq_of_closingLine own member (congrArg Line.number same), none'] at planned
  exact Option.some_ne_none update planned.symm

/-- A node without a planned change stays. -/
theorem reclose_of_not_planned {id : String} {node : Node}
    (found : (Graph.ofText scheme path text).node? id = some node)
    (other : id ∉ (plan (Graph.ofText scheme path text) length).map HashUpdate.id)
    : node.reclose (edit scheme path text length) = node := by
  have own := Graph.id_of_node? found
  by_cases kind : node.kind = .requirement
  · have member : node ∈ (Graph.ofText scheme path text).requirements :=
      Graph.mem_nodesOfKind_iff.mpr ⟨own ▸ found, kind⟩
    refine reclose_of_valid member ?_
    cases planned : ofNode? length node with
    | none => rfl
    | some update =>
        have listed := mem_plan_iff.mpr ⟨node, member, planned⟩
        obtain ⟨-, rfl⟩ := ofNode?_eq_some_iff.mp planned
        exact absurd (List.mem_map.mpr ⟨_, listed, own⟩) other
  · exact Node.reclose_of_other kind

/-- A requirement with a planned change has the computed hash afterwards. -/
theorem hash_reclose (stored : StoredProducible (Graph.ofText scheme path text))
    (long : 4 ≤ length) (short : length ≤ 64) {node : Node}
    (member : node ∈ (Graph.ofText scheme path text).requirements) {update : HashUpdate}
    (planned : ofNode? length node = some update)
    : (node.reclose (edit scheme path text length)).text? FieldKey.hash
      = some (BodyHash.compute ((node.text? FieldKey.body).getD "") length) := by
  have kind := (Graph.mem_nodesOfKind_iff.mp member).2
  obtain ⟨marker, -, after⟩ := (rehashed_of_planned stored long short member planned).reads
  obtain ⟨-, rfl⟩ := ofNode?_eq_some_iff.mp planned
  rw [Node.text?, Node.field_reclose kind, if_neg (by decide), if_pos rfl, after]
  rfl

theorem body_reclose (f : Line → Line) (node : Node)
    : (node.reclose f).text? FieldKey.body = node.text? FieldKey.body := by
  by_cases kind : node.kind = .requirement
  · rw [Node.text?, Node.text?, Node.field_reclose kind, if_neg (by decide), if_neg (by decide)]
  · rw [Node.reclose_of_other kind]

/-- Every requirement of the rewritten file has a valid hash. -/
theorem verify_reclose (stored : StoredProducible (Graph.ofText scheme path text))
    (long : 4 ≤ length) (short : length ≤ 64) {node : Node}
    (member : node ∈ (Graph.ofText scheme path text).requirements)
    : let after := node.reclose (edit scheme path text length)
      BodyHash.verify ((after.text? FieldKey.body).getD "") (after.text? FieldKey.hash) length
        = .valid := by
  intro after
  cases planned : ofNode? length node with
  | none =>
      have same : after = node := reclose_of_valid member planned
      rw [same]
      by_contra invalid
      rw [ofNode?_eq_some_iff.mpr ⟨invalid, rfl⟩] at planned
      exact Option.some_ne_none _ planned
  | some update =>
      rw [hash_reclose stored long short member planned, body_reclose]
      exact BodyHash.verify_compute _ length

/-- No change is planned when all hashes are valid. -/
theorem plan_eq_nil_iff {graph : Graph}
    : plan graph length = []
      ↔ ∀ node ∈ graph.requirements,
          BodyHash.verify ((node.text? FieldKey.body).getD "") (node.text? FieldKey.hash) length
            = .valid := by
  rw [plan, List.filterMap_eq_nil_iff]
  refine forall₂_congr (fun node member => ?_)
  rw [ofNode?]
  split
  · next valid => simp [valid]
  · next invalid => simp [invalid]

/-- The rule on stored hashes reports a requirement exactly if a change is planned for it. -/
theorem check_storedHash_eq_nil_iff {context : RuleContext}
    : Rule.storedHash.check context = []
      ↔ ∀ node ∈ context.graph.requirements,
          BodyHash.verify ((node.text? FieldKey.body).getD "") (node.text? FieldKey.hash)
            context.scheme.hashLength = .valid := by
  rw [Rule.storedHash, List.filterMap_eq_nil_iff]
  refine forall₂_congr (fun node member => ?_)
  rw [Rule.StoredHash.finding?]
  split
  · next valid => simp [valid]
  · next mismatch => simp [mismatch]
  · next missing => simp [missing]

-----------------------------------------------------------------------------------------
-- Convergence
-----------------------------------------------------------------------------------------

/-- Updating the stored hashes of a file succeeds and settles them. The rewritten file has the
edges, roots and duplicates of the file and its nodes, apart from the closing markers of the
updated requirements and the hashes on them. Afterwards every hash is valid, none is reported,
and no change is planned. -/
theorem rewrite_plan_converges {config : Config} {limit : Nat} {scheme : Scheme}
    (compiled : config.compileWithin limit = .ok scheme) (path : String) {text : String}
    (feeds : FeedsAfterReturns text.toList)
    (stored : StoredProducible (Graph.ofText scheme path text))
    : let graph := Graph.ofText scheme path text
      let updates := plan graph scheme.hashLength
      ∃ rewritten,
        rewrite path text updates = .ok rewritten
        ∧ let after := Graph.ofText scheme path rewritten
          after.edges = graph.edges
          ∧ after.roots = graph.roots
          ∧ after.duplicates = graph.duplicates
          ∧ (∀ id, id ∉ updates.map HashUpdate.id → after.node? id = graph.node? id)
          ∧ (∀ id,
              (after.node? id).map Node.withoutClosing = (graph.node? id).map Node.withoutClosing)
          ∧ (∀ node ∈ after.requirements,
              BodyHash.verify ((node.text? FieldKey.body).getD "") (node.text? FieldKey.hash)
                scheme.hashLength
              = .valid)
          ∧ Rule.storedHash.check { graph := after, scheme, coverage := after.coverage } = []
          ∧ plan after scheme.hashLength = [] := by
  intro graph updates
  obtain ⟨long, short⟩ := config.hashLength_of_compile compiled
  obtain ⟨rewritten, done, reclosed, roots⟩ := exists_rewritten feeds stored long short
  refine ⟨rewritten, done, ?_⟩
  intro after
  have valid : ∀ node ∈ after.requirements,
      BodyHash.verify ((node.text? FieldKey.body).getD "") (node.text? FieldKey.hash)
        scheme.hashLength
      = .valid := by
    intro node member
    obtain ⟨found, kind⟩ := Graph.mem_nodesOfKind_iff.mp member
    rw [reclosed.node] at found
    obtain ⟨old, here, rfl⟩ := Option.map_eq_some_iff.mp found
    rw [Node.id_reclose] at here
    rw [Node.kind_reclose] at kind
    exact verify_reclose stored long short (Graph.mem_nodesOfKind_iff.mpr ⟨here, kind⟩)
  refine ⟨reclosed.edges, roots, reclosed.duplicates, ?_, ?_, valid,
    check_storedHash_eq_nil_iff.mpr valid, plan_eq_nil_iff.mpr valid⟩
  · intro id other
    rw [reclosed.node]
    refine (Option.map_congr (fun node found => ?_)).trans Option.map_id'
    exact reclose_of_not_planned found other
  · intro id
    rw [reclosed.node, Option.map_map]
    congr 1
    funext node
    exact Node.withoutClosing_reclose node

/-- A requirement whose hash is stale, with line ends of both kinds. -/
def staleText : String :=
  "# REQ-p00001: Login\n**Level**: PRD\r\nText\n*End* *Login* | **Hash**: 0aF1\r\n"

theorem rewrite_plan_converges_staleText
    : let graph := Graph.ofText Config.defaultScheme "spec.md" staleText
      ({} : Config).compile = .ok Config.defaultScheme
      ∧ FeedsAfterReturns staleText.toList
      ∧ StoredProducible graph
      ∧ (plan graph Config.defaultScheme.hashLength).map HashUpdate.line = [4]
      ∧ ∃ rewritten,
          rewrite "spec.md" staleText (plan graph Config.defaultScheme.hashLength) = .ok rewritten
          ∧ plan (Graph.ofText Config.defaultScheme "spec.md" rewritten)
              Config.defaultScheme.hashLength = [] := by
  have feeds : FeedsAfterReturns staleText.toList := by decide +kernel
  have stored : StoredProducible (Graph.ofText Config.defaultScheme "spec.md" staleText) := by
    decide +kernel
  obtain ⟨rewritten, done, -, -, -, -, -, -, -, settled⟩ :=
    rewrite_plan_converges Config.compile_default "spec.md" feeds stored
  exact ⟨Config.compile_default, feeds, stored, by decide +kernel, rewritten, done, settled⟩

end Traceability.HashUpdate
