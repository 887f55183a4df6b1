import Mathlib
import Traceability.Proofs.Coverage.Reachability
import Traceability.Proofs.Sorting

/-! The cycles are the strongly connected components that hold a cycle.
Being on one cycle is symmetric and transitive, so a sorted list of all requirements on one cycle
is fixed by any of its members, and the list of cycles by the leads of the graph.
-/

namespace Traceability

namespace Graph

open Relation

-----------------------------------------------------------------------------------------
-- The list of cycles
-----------------------------------------------------------------------------------------

/-- A sorted list of all requirements that are on one cycle. -/
structure IsCycle (graph : Graph) (cycle : List String) : Prop where
  nonempty : cycle ≠ []
  ordered : cycle.Pairwise (· < ·)
  whole : ∀ a ∈ cycle, ∀ b, b ∈ cycle ↔ graph.OnOneCycle a b

variable {graph : Graph}

theorem IsCycle.onOneCycle {cycle : List String} (isCycle : graph.IsCycle cycle) {a : String}
    (member : a ∈ cycle)
    : graph.OnOneCycle a a :=
  (isCycle.whole a member a).mp member

theorem IsCycle.exists_mem {cycle : List String} (isCycle : graph.IsCycle cycle)
    : ∃ a, a ∈ cycle :=
  List.exists_mem_of_ne_nil cycle isCycle.nonempty

/-- Two cycles with a common member are the same. -/
theorem IsCycle.eq_of_mem {cycle other : List String} (isCycle : graph.IsCycle cycle)
    (isOther : graph.IsCycle other) {a : String} (here : a ∈ cycle) (there : a ∈ other)
    : cycle = other := by
  refine isCycle.ordered.eq_of_mem_iff isOther.ordered (fun b => ?_)
  rw [isCycle.whole a here, isOther.whole a there]

theorem isCycle_implementsMap_iff {cycle : List String}
    : graph.implementsMap.IsCycle cycle ↔ graph.IsCycle cycle := by
  constructor
  · intro isCycle
    refine ⟨isCycle.nonempty, isCycle.ordered, fun a member b => ?_⟩
    rw [isCycle.whole a member, onOneCycle_implementsMap_iff]
  · intro isCycle
    refine ⟨isCycle.nonempty, isCycle.ordered, fun a member b => ?_⟩
    rw [isCycle.whole a member, onOneCycle_implementsMap_iff]

/-- The components that the two passes find, before they are sorted. -/
def components (graph : Graph) : List (List String) :=
  graph.implementsMap.cyclicComponents graph.implementsMap.transposed ∅
    graph.implementsMap.finishOrder

theorem listsCycles_components (graph : Graph)
    : graph.implementsMap.ListsCycles ∅ graph.components :=
  graph.implementsMap.cyclicComponents_finishOrder

theorem cycles_perm (graph : Graph) : graph.cycles.Perm graph.components :=
  List.mergeSort_perm _ _

/-- No requirement is on two of the listed cycles. -/
theorem cycles_disjoint (graph : Graph) : graph.cycles.Pairwise List.Disjoint :=
  (graph.cycles_perm.pairwise_iff List.Disjoint.symm).mpr
    graph.listsCycles_components.disjoint

/-- The cycles are listed. Witness: each of its members is in a component, which is a cycle too. -/
theorem mem_cycles_iff {cycle : List String} : cycle ∈ graph.cycles ↔ graph.IsCycle cycle := by
  have lists := graph.listsCycles_components
  rw [graph.cycles_perm.mem_iff]
  constructor
  · intro listed
    exact isCycle_implementsMap_iff.mp (lists.isCycle cycle listed)
  · intro isCycle
    obtain ⟨a, member⟩ := isCycle.exists_mem
    have onCycle := onOneCycle_implementsMap_iff.mpr (isCycle.onOneCycle member)
    obtain ⟨ids, listed, there⟩ := lists.complete a Std.ExtTreeSet.not_mem_empty onCycle.1
    have isOther := isCycle_implementsMap_iff.mp (lists.isCycle ids listed)
    exact isCycle.eq_of_mem isOther member there ▸ listed

/-- Each requirement that is on a cycle is listed. -/
theorem exists_mem_cycles {id : String} (onCycle : graph.OnOneCycle id id)
    : ∃ cycle ∈ graph.cycles, id ∈ cycle := by
  obtain ⟨cycle, listed, member⟩ := graph.listsCycles_components.complete id
    Std.ExtTreeSet.not_mem_empty (onOneCycle_implementsMap_iff.mpr onCycle).1
  exact ⟨cycle, graph.cycles_perm.mem_iff.mpr listed, member⟩

/-- Two requirements, perhaps the same, are listed together exactly if they are on one cycle. -/
theorem listed_together_iff {a b : String}
    : (∃ cycle ∈ graph.cycles, a ∈ cycle ∧ b ∈ cycle) ↔ graph.OnOneCycle a b := by
  constructor
  · intro ⟨cycle, listed, here, there⟩
    exact ((mem_cycles_iff.mp listed).whole a here b).mp there
  · intro on
    obtain ⟨cycle, listed, member⟩ := exists_mem_cycles (on.trans on.symm)
    exact ⟨cycle, listed, member, ((mem_cycles_iff.mp listed).whole a member b).mpr on⟩

/-- The cycles are sorted. -/
theorem cycles_ordered (graph : Graph) : graph.cycles.Pairwise (· < ·) := by
  have distinct : graph.components.Nodup := by
    refine graph.cycles_perm.nodup_iff.mp (graph.cycles_disjoint.imp_of_mem ?_)
    intro cycle other listed _ disjoint same
    obtain ⟨a, member⟩ := (mem_cycles_iff.mp listed).exists_mem
    exact disjoint member (same ▸ member)
  exact (pairwise_mergeSort_lt distinct).imp lt_of_compare_eq_lt

/-- The cycles follow from which requirements lead to which. -/
theorem cycles_congr {other : Graph}
    (leads : ∀ source target, other.Leads source target ↔ graph.Leads source target)
    : other.cycles = graph.cycles := by
  have same : other.Leads = graph.Leads :=
    funext₂ (fun source target => propext (leads source target))
  have isCycle (cycle : List String) : other.IsCycle cycle ↔ graph.IsCycle cycle := by
    have onCycle (a b : String) : other.OnOneCycle a b ↔ graph.OnOneCycle a b := by
      rw [OnOneCycle, OnOneCycle, same]
    exact ⟨fun given => ⟨given.nonempty, given.ordered, fun a member b =>
        (given.whole a member b).trans (onCycle a b)⟩,
      fun given => ⟨given.nonempty, given.ordered, fun a member b =>
        (given.whole a member b).trans (onCycle a b).symm⟩⟩
  refine other.cycles_ordered.eq_of_mem_iff graph.cycles_ordered (fun cycle => ?_)
  rw [mem_cycles_iff, mem_cycles_iff, isCycle]

/-- There are no cycles exactly if no requirement can be reached from itself. -/
theorem cycles_eq_nil_iff : graph.cycles = [] ↔ ∀ id, ¬ TransGen graph.Leads id id := by
  rw [List.eq_nil_iff_forall_not_mem]
  constructor
  · intro none id chain
    obtain ⟨cycle, listed, -⟩ := exists_mem_cycles ⟨chain, chain⟩
    exact none cycle listed
  · intro acyclic cycle listed
    have isCycle := mem_cycles_iff.mp listed
    obtain ⟨a, member⟩ := isCycle.exists_mem
    exact acyclic a (isCycle.onOneCycle member).1

-----------------------------------------------------------------------------------------
-- Strongly connected components
-----------------------------------------------------------------------------------------

/-- Each can be reached from the other, in any number of steps. -/
def SameComponent (graph : Graph) (a b : String) : Prop :=
  ReflTransGen graph.Leads a b ∧ ReflTransGen graph.Leads b a

theorem sameComponent_iff {graph : Graph} {a b : String}
    : graph.SameComponent a b ↔ a = b ∨ graph.OnOneCycle a b := by
  rw [SameComponent, reflTransGen_iff_eq_or_transGen, reflTransGen_iff_eq_or_transGen]
  constructor
  · intro given
    rcases given with ⟨rfl | forth, back⟩
    · exact Or.inl rfl
    · rcases back with rfl | back
      · exact Or.inl rfl
      · exact Or.inr ⟨forth, back⟩
  · intro given
    rcases given with rfl | ⟨forth, back⟩
    · exact ⟨Or.inl rfl, Or.inl rfl⟩
    · exact ⟨Or.inr forth, Or.inr back⟩

/-- A requirement that is alone in its component is on a cycle only by leading to itself. -/
theorem leads_self_of_alone {graph : Graph} {a : String}
    (alone : ∀ b, graph.SameComponent a b → b = a)
    (chain : TransGen graph.Leads a a)
    : graph.Leads a a := by
  obtain ⟨next, leads, back⟩ := TransGen.head'_iff.mp chain
  have same := alone next ⟨.single leads, back⟩
  exact same ▸ leads

/-- The cycles are exactly the strongly connected components with more than one member or with
a member that leads to itself. Each is listed as a whole and once, sorted and without repeats,
and so are they among each other. -/
theorem cycles_are_components (graph : Graph)
    : (∀ a b, a ≠ b →
          ((∃ cycle ∈ graph.cycles, a ∈ cycle ∧ b ∈ cycle) ↔ graph.SameComponent a b))
      ∧ (∀ a, (∀ b, graph.SameComponent a b → b = a) →
          ((∃ cycle ∈ graph.cycles, a ∈ cycle) ↔ graph.Leads a a))
      ∧ (∀ cycle ∈ graph.cycles,
          cycle ≠ []
          ∧ (∀ a ∈ cycle,
              graph.isRequirement a = true ∧ ∀ b, b ∈ cycle ↔ graph.SameComponent a b)
          ∧ cycle.Pairwise (· < ·))
      ∧ graph.cycles.Pairwise List.Disjoint
      ∧ graph.cycles.Pairwise (· < ·) := by
  refine ⟨?_, ?_, ?_, graph.cycles_disjoint, graph.cycles_ordered⟩
  · intro a b distinct
    rw [listed_together_iff, sameComponent_iff, or_iff_right distinct]
  · intro a alone
    constructor
    · intro ⟨cycle, listed, member⟩
      exact leads_self_of_alone alone ((mem_cycles_iff.mp listed).onOneCycle member).1
    · intro leads
      exact exists_mem_cycles ⟨.single leads, .single leads⟩
  · intro cycle listed
    have isCycle := mem_cycles_iff.mp listed
    refine ⟨isCycle.nonempty, fun a member => ?_, isCycle.ordered⟩
    have onCycle := isCycle.onOneCycle member
    refine ⟨onCycle.isRequirement, fun b => ?_⟩
    rw [isCycle.whole a member, sameComponent_iff]
    refine ⟨Or.inr, ?_⟩
    intro given
    rcases given with rfl | on
    · exact onCycle
    · exact on

end Graph

end Traceability
