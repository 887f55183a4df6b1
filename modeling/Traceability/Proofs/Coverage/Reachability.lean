import Traceability.Coverage.Cycles
import Traceability.Proofs.Coverage.StrongComponents
import Traceability.Proofs.Graph.Nodes

/-! Requirements that implement one another.
The owner of a target may be a node of another kind. Such a node has no successors, so it ends a way
and is on no cycle, and ways between requirements pass requirements only.
-/

namespace Traceability.Graph

open Relation

/-- One requirement leads to another if an IMPLEMENTS edge goes from it to the other or to an
assertion that names the other as its requirement. -/
def Leads (graph : Graph) (source target : String) : Prop :=
  graph.isRequirement source = true
  ∧ graph.isRequirement target = true
  ∧ ∃ edge ∈ graph.edges,
      edge.kind = .implements
      ∧ edge.source = source
      ∧ (edge.target = target
        ∨ ∃ node,
            graph.node? edge.target = some node
            ∧ node.kind = .assertion
            ∧ node.text? FieldKey.requirement = some target)

theorem Leads.requirements {graph : Graph} {source target : String}
    (h : graph.Leads source target)
    : graph.isRequirement source = true ∧ graph.isRequirement target = true :=
  ⟨h.1, h.2.1⟩

-----------------------------------------------------------------------------------------
-- The steps of the map
-----------------------------------------------------------------------------------------

/-- An entry without successors adds no step. -/
private theorem not_step_foldl_insert (nodes : List Node) {adjacency : Adjacency}
    (none : ∀ source target, ¬ adjacency.Step source target) (source target : String)
    : ¬ (nodes.foldl (fun adjacency node => adjacency.insert node.id ∅) adjacency).Step
        source target := by
  induction nodes generalizing adjacency with
  | nil => exact none source target
  | cons node rest ih =>
      refine ih (fun source target step => ?_)
      obtain ⟨targets, found, member⟩ := Adjacency.step_iff.mp step
      rw [Std.ExtTreeMap.getElem?_insert] at found
      split at found
      · obtain rfl := Option.some.inj found
        exact Std.ExtTreeSet.not_mem_empty member
      · exact none source target (Adjacency.step_iff.mpr ⟨targets, found, member⟩)

theorem step_addStep_iff {graph : Graph} {adjacency : Adjacency} {edge : Edge}
    {source target : String}
    : (graph.addStep adjacency edge).Step source target
      ↔ adjacency.Step source target
        ∨ edge.source = source
          ∧ graph.isRequirement source = true
          ∧ ∃ owner, graph.owner? edge.target = some owner ∧ owner.id = target := by
  rw [addStep]
  split
  · next owner requirement owned =>
      by_cases same : edge.source = source
      · subst same
        simp only [Adjacency.Step, Adjacency.successors, Std.ExtTreeMap.getElem?_alter_self,
          Option.getD_some, Std.ExtTreeSet.mem_toList, Std.ExtTreeSet.mem_insert,
          Std.LawfulEqCmp.compare_eq_iff_eq, requirement, owned, true_and, Option.some.injEq,
          exists_eq_left']
        exact or_comm
      · simp [Adjacency.Step, Adjacency.successors, Std.ExtTreeMap.getElem?_alter, same]
  · next other =>
      refine (or_iff_left ?_).symm
      intro given
      obtain ⟨rfl, requirement, owner, owned, -⟩ := given
      exact other owner requirement owned

private theorem step_foldl_addStep_iff {graph : Graph} {edges : List Edge} {adjacency : Adjacency}
    {source target : String}
    : (edges.foldl graph.addStep adjacency).Step source target
      ↔ adjacency.Step source target
        ∨ ∃ edge ∈ edges,
            edge.source = source
            ∧ graph.isRequirement source = true
            ∧ ∃ owner, graph.owner? edge.target = some owner ∧ owner.id = target := by
  induction edges generalizing adjacency with
  | nil => simp
  | cons edge rest ih =>
      rw [List.foldl_cons, ih, step_addStep_iff, List.exists_mem_cons_iff, or_assoc]

theorem step_implementsMap_iff {graph : Graph} {source target : String}
    : graph.implementsMap.Step source target
      ↔ ∃ edge ∈ graph.edgesOfKind .implements,
          edge.source = source
          ∧ graph.isRequirement source = true
          ∧ ∃ owner, graph.owner? edge.target = some owner ∧ owner.id = target := by
  have empty (source target : String) : ¬ Adjacency.Step ∅ source target := by
    intro step
    obtain ⟨targets, found, -⟩ := Adjacency.step_iff.mp step
    simp at found
  rw [implementsMap, step_foldl_addStep_iff,
    or_iff_right (not_step_foldl_insert _ empty source target)]

theorem isRequirement_of_step {graph : Graph} {source target : String}
    (step : graph.implementsMap.Step source target)
    : graph.isRequirement source = true := by
  obtain ⟨_, _, _, requirement, _⟩ := step_implementsMap_iff.mp step
  exact requirement

/-- The steps to requirements are the leads. -/
theorem step_iff_leads {graph : Graph} {source target : String}
    (requirement : graph.isRequirement target = true)
    : graph.implementsMap.Step source target ↔ graph.Leads source target := by
  rw [step_implementsMap_iff, Leads]
  simp only [owner?_id_iff requirement]
  constructor
  · intro ⟨edge, member, here, from', owned⟩
    obtain ⟨inGraph, kind⟩ := List.mem_filter.mp member
    exact ⟨from', requirement, edge, Array.mem_toList_iff.mp inGraph, of_decide_eq_true kind, here,
      owned⟩
  · intro ⟨from', _, edge, inGraph, kind, here, owned⟩
    exact ⟨edge, List.mem_filter.mpr ⟨Array.mem_toList_iff.mpr inGraph, decide_eq_true kind⟩, here,
      from', owned⟩

-----------------------------------------------------------------------------------------
-- Cycles of requirements
-----------------------------------------------------------------------------------------

/-- Both can be reached from each other in one or more steps. -/
def OnOneCycle (graph : Graph) (a b : String) : Prop :=
  TransGen graph.Leads a b ∧ TransGen graph.Leads b a

theorem OnOneCycle.symm {graph : Graph} {a b : String} (h : graph.OnOneCycle a b)
    : graph.OnOneCycle b a :=
  ⟨h.2, h.1⟩

theorem OnOneCycle.trans {graph : Graph} {a b c : String} (h : graph.OnOneCycle a b)
    (further : graph.OnOneCycle b c)
    : graph.OnOneCycle a c :=
  ⟨h.1.trans further.1, further.2.trans h.2⟩

theorem OnOneCycle.isRequirement {graph : Graph} {a b : String} (h : graph.OnOneCycle a b)
    : graph.isRequirement a = true := by
  obtain ⟨next, leads, -⟩ := TransGen.head'_iff.mp h.1
  exact leads.requirements.1

/-- A way to a requirement leads from requirement to requirement, as each node on it has a step. -/
theorem transGen_step_iff {graph : Graph} {source target : String}
    (requirement : graph.isRequirement target = true)
    : TransGen graph.implementsMap.Step source target ↔ TransGen graph.Leads source target := by
  constructor
  · intro chain
    induction chain using TransGen.head_induction_on with
    | single step => exact .single ((step_iff_leads requirement).mp step)
    | head step onward ih =>
        obtain ⟨next, onStep, -⟩ := TransGen.head'_iff.mp onward
        exact .head ((step_iff_leads (isRequirement_of_step onStep)).mp step) ih
  · exact TransGen.mono (fun _ _ leads => (step_iff_leads leads.requirements.2).mpr leads) _ _

/-- The cycles of the map are those of requirements. -/
theorem onOneCycle_implementsMap_iff {graph : Graph} {a b : String}
    : graph.implementsMap.OnOneCycle a b ↔ graph.OnOneCycle a b := by
  constructor
  · intro ⟨forth, back⟩
    obtain ⟨_, stepForth, -⟩ := TransGen.head'_iff.mp forth
    obtain ⟨_, stepBack, -⟩ := TransGen.head'_iff.mp back
    exact ⟨(transGen_step_iff (isRequirement_of_step stepBack)).mp forth,
      (transGen_step_iff (isRequirement_of_step stepForth)).mp back⟩
  · intro onCycle
    exact ⟨(transGen_step_iff onCycle.symm.isRequirement).mpr onCycle.1,
      (transGen_step_iff onCycle.isRequirement).mpr onCycle.2⟩

end Traceability.Graph
