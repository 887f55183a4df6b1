import Mathlib.Data.List.Nodup
import Mathlib.Logic.Relation
import Traceability.Coverage.Traversal

/-! The order in which the first pass is done with the nodes.
While a node is on the stack, all nodes below it lead to it. So a step out of the nodes that are
done by the time of a node arrives at a node from which there is a way back to it. That is all that
the second pass needs of the order.
-/

namespace Traceability.Adjacency

open Relation

-----------------------------------------------------------------------------------------
-- Steps and ways
-----------------------------------------------------------------------------------------

/-- There is a step from one node to the other. -/
def Step (adjacency : Adjacency) (source target : String) : Prop :=
  target ∈ adjacency.successors source

/-- There is a way from one node to the other, perhaps without any step. -/
abbrev Reaches (adjacency : Adjacency) (source target : String) : Prop :=
  ReflTransGen adjacency.Step source target

variable {adjacency : Adjacency}

theorem step_iff {source target : String}
    : adjacency.Step source target
      ↔ ∃ targets, adjacency[source]? = some targets ∧ target ∈ targets := by
  rw [Step, successors, Std.ExtTreeSet.mem_toList]
  cases adjacency[source]? with
  | none => simp
  | some targets => simp

theorem Step.mem_keys {source target : String} (step : adjacency.Step source target)
    : source ∈ adjacency.keys := by
  obtain ⟨targets, found, -⟩ := step_iff.mp step
  rw [Std.ExtTreeMap.mem_keys, Std.ExtTreeMap.mem_iff_isSome_getElem?, found]
  rfl

-----------------------------------------------------------------------------------------
-- What the order says
-----------------------------------------------------------------------------------------

/-- A list of nodes, the last one that was done first. From each node on, a step out of the rest
of the list arrives at a node from which there is a way back to the first of the rest. -/
inductive FinishedInOrder (adjacency : Adjacency) : List String → Prop
  | nil : FinishedInOrder adjacency []
  | cons {id : String} {earlier : List String}
    (returns
      : ∀ source ∈ id :: earlier, ∀ target,
          adjacency.Step source target
          → target ∈ id :: earlier ∨ adjacency.Reaches target id)
    (before : FinishedInOrder adjacency earlier)
    : FinishedInOrder adjacency (id :: earlier)

theorem FinishedInOrder.of_append {later earlier : List String}
    (inOrder : adjacency.FinishedInOrder (later ++ earlier))
    : adjacency.FinishedInOrder earlier := by
  induction later with
  | nil => exact inOrder
  | cons id rest ih =>
      cases inOrder with
      | cons _ before => exact ih before

/-- A way either ends among the nodes that are done by the time of a node, or it leaves them to go
on from a node that is on a cycle with it. Witness: induction along the way, from its end. -/
theorem FinishedInOrder.leaves {id : String} {earlier : List String}
    (inOrder : adjacency.FinishedInOrder (id :: earlier)) {source target : String}
    (member : source ∈ id :: earlier) (way : adjacency.Reaches source target)
    : target ∈ id :: earlier
      ∨ ∃ exit,
          exit ∉ id :: earlier
          ∧ adjacency.Reaches source exit
          ∧ adjacency.Reaches exit id
          ∧ adjacency.Reaches exit target := by
  cases inOrder with
  | cons returns _ =>
      induction way using ReflTransGen.head_induction_on with
      | refl => exact Or.inl member
      | @head source next step onward ih =>
          by_cases inside : next ∈ id :: earlier
          · rcases ih inside with ends | ⟨exit, outside, arrives, back, further⟩
            · exact Or.inl ends
            · exact Or.inr ⟨exit, outside, arrives.head step, back, further⟩
          · have back := (returns source member next step).resolve_left inside
            exact Or.inr ⟨next, inside, .single step, back, onward⟩

-----------------------------------------------------------------------------------------
-- The invariant of the first pass
-----------------------------------------------------------------------------------------

/-- What holds while the first pass walks. The nodes that it has entered are on the stack or done.
On the stack each node leads to those above it, and the successors that a frame does not list any
more were entered. -/
structure Walking (adjacency : Adjacency) (progress : Progress) (stack : List Frame) : Prop where
  entered_iff
    : ∀ id, id ∈ progress.entered ↔ id ∈ stack.map Frame.id ∨ id ∈ progress.finished
  unique : (stack.map Frame.id ++ progress.finished).Nodup
  upwards : (stack.map Frame.id).Pairwise (fun upper lower => adjacency.Reaches lower upper)
  ahead : ∀ frame ∈ stack, ∀ next ∈ frame.ahead, adjacency.Step frame.id next
  behind
    : ∀ frame ∈ stack, ∀ next,
        adjacency.Step frame.id next → next ∈ frame.ahead ∨ next ∈ progress.entered
  closed
    : ∀ id ∈ progress.finished, ∀ next, adjacency.Step id next → next ∈ progress.entered
  inOrder : adjacency.FinishedInOrder progress.finished

namespace Walking

variable {progress : Progress} {id next : String} {ahead : List String} {stack : List Frame}

theorem initial (adjacency : Adjacency) : adjacency.Walking {} [] where
  entered_iff := by simp
  unique := List.nodup_nil
  upwards := .nil
  ahead := by simp
  behind := by simp
  closed := by simp
  inOrder := .nil

/-- When nothing is ahead of the node on top, all steps out of it lead to what was entered. -/
theorem entered_of_step (walking : adjacency.Walking progress (⟨id, []⟩ :: stack))
    {source target : String} (member : source ∈ id :: progress.finished)
    (step : adjacency.Step source target)
    : target ∈ progress.entered := by
  rcases List.mem_cons.mp member with rfl | earlier
  · exact (walking.behind _ List.mem_cons_self target step).resolve_left List.not_mem_nil
  · exact walking.closed source earlier target step

/-- Being done with the node on top. Witness: a step out of what is done by then arrives at a node
on the stack, from which there is a way up to this one. -/
theorem finish (walking : adjacency.Walking progress (⟨id, []⟩ :: stack))
    : adjacency.Walking { progress with finished := id :: progress.finished } stack where
  entered_iff := by
    intro other
    rw [walking.entered_iff, List.map_cons, List.mem_cons, List.mem_cons, or_left_comm, or_assoc]
  unique := (List.perm_middle.nodup_iff).mpr walking.unique
  upwards := walking.upwards.of_cons
  ahead := fun frame member => walking.ahead frame (List.mem_cons_of_mem _ member)
  behind := fun frame member => walking.behind frame (List.mem_cons_of_mem _ member)
  closed := fun source member target step => walking.entered_of_step member step
  inOrder := by
    refine .cons ?_ walking.inOrder
    intro source member target step
    rcases (walking.entered_iff target).mp (walking.entered_of_step member step)
      with stacked | finished
    · rcases List.mem_cons.mp stacked with rfl | below
      · exact Or.inl List.mem_cons_self
      · exact Or.inr ((List.pairwise_cons.mp walking.upwards).1 target below)
    · exact Or.inl (List.mem_cons_of_mem id finished)

/-- A frame of which less is ahead is the only one that changes. -/
theorem eq_or_mem_of_mem {upper : List Frame} {frame : Frame}
    (member : frame ∈ upper ++ ⟨id, ahead⟩ :: stack)
    : frame = ⟨id, ahead⟩ ∨ frame ∈ upper ++ ⟨id, next :: ahead⟩ :: stack := by
  rcases List.mem_append.mp member with above | here
  · exact Or.inr (List.mem_append_left _ above)
  · rcases List.mem_cons.mp here with same | below
    · exact Or.inl same
    · exact Or.inr (List.mem_append_right _ (List.mem_cons_of_mem _ below))

/-- Passing over a successor that was entered before, in any frame of the stack. -/
theorem pass (upper : List Frame)
    (walking : adjacency.Walking progress (upper ++ ⟨id, next :: ahead⟩ :: stack))
    (seen : next ∈ progress.entered)
    : adjacency.Walking progress (upper ++ ⟨id, ahead⟩ :: stack) where
  entered_iff := by simpa only [List.map_append, List.map_cons] using walking.entered_iff
  unique := by simpa only [List.map_append, List.map_cons] using walking.unique
  upwards := by simpa only [List.map_append, List.map_cons] using walking.upwards
  ahead := by
    intro frame member other listed
    rcases eq_or_mem_of_mem member with rfl | same
    · exact walking.ahead _ List.mem_append_cons_self other (List.mem_cons_of_mem next listed)
    · exact walking.ahead frame same other listed
  behind := by
    intro frame member other step
    rcases eq_or_mem_of_mem member with rfl | same
    · rcases walking.behind _ List.mem_append_cons_self other step with listed | entered
      · rcases List.mem_cons.mp listed with rfl | later
        · exact Or.inr seen
        · exact Or.inl later
      · exact Or.inr entered
    · exact walking.behind frame same other step
  closed := walking.closed
  inOrder := walking.inOrder

/-- Putting a node on the stack to which all nodes there lead. -/
theorem enter (walking : adjacency.Walking progress stack) (fresh : next ∉ progress.entered)
    (leads : ∀ lower ∈ stack.map Frame.id, adjacency.Reaches lower next)
    : adjacency.Walking { progress with entered := progress.entered.insert next }
        (⟨next, adjacency.successors next⟩ :: stack) where
  entered_iff := by
    intro other
    rw [Std.ExtTreeSet.mem_insert, Std.LawfulEqCmp.compare_eq_iff_eq, walking.entered_iff,
      List.map_cons, List.mem_cons, or_assoc, eq_comm]
  unique := by
    rw [List.map_cons, List.cons_append, List.nodup_cons]
    refine ⟨fun member => fresh ?_, walking.unique⟩
    exact (walking.entered_iff next).mpr (List.mem_append.mp member)
  upwards := List.pairwise_cons.mpr ⟨leads, walking.upwards⟩
  ahead := by
    intro frame member other listed
    rcases List.mem_cons.mp member with rfl | below
    · exact listed
    · exact walking.ahead frame below other listed
  behind := by
    intro frame member other step
    rcases List.mem_cons.mp member with rfl | below
    · exact Or.inl step
    · exact (walking.behind frame below other step).imp_right
        (fun entered => Std.ExtTreeSet.mem_insert.mpr (Or.inr entered))
  closed := by
    intro source member other step
    exact Std.ExtTreeSet.mem_insert.mpr (Or.inr (walking.closed source member other step))
  inOrder := walking.inOrder

end Walking

-----------------------------------------------------------------------------------------
-- The order of the whole pass
-----------------------------------------------------------------------------------------

/-- The pass walks until its stack is empty, and what it has entered stays so. Witness: induction
along the walk. -/
theorem Walking.walk {progress : Progress} {stack : List Frame}
    (walking : adjacency.Walking progress stack)
    : adjacency.Walking (adjacency.walk progress stack) []
      ∧ ∀ id ∈ progress.entered, id ∈ (adjacency.walk progress stack).entered := by
  induction progress, stack using Adjacency.walk.induct adjacency with
  | case1 progress =>
      rw [Adjacency.walk]
      exact ⟨walking, fun _ member => member⟩
  | case2 progress id stack ih =>
      rw [Adjacency.walk]
      exact ih walking.finish
  | case3 progress id next ahead stack seen ih =>
      rw [Adjacency.walk, if_pos seen]
      exact ih (walking.pass [] seen)
  | case4 progress id next ahead stack fresh ih =>
      rw [Adjacency.walk, if_neg fresh]
      have step : adjacency.Step id next :=
        walking.ahead _ List.mem_cons_self next List.mem_cons_self
      have leads : ∀ lower ∈ id :: stack.map Frame.id, adjacency.Reaches lower next := by
        intro lower member
        rcases List.mem_cons.mp member with rfl | below
        · exact .single step
        · exact ((List.pairwise_cons.mp walking.upwards).1 lower below).tail step
      have entered := walking.enter fresh leads
      obtain ⟨walked, kept⟩ :=
        ih (entered.pass [_] Std.ExtTreeSet.mem_insert_self)
      exact ⟨walked, fun other member =>
        kept other (Std.ExtTreeSet.mem_insert.mpr (Or.inr member))⟩

theorem Walking.walkFrom {progress : Progress} (walking : adjacency.Walking progress [])
    (start : String)
    : adjacency.Walking (adjacency.walkFrom progress start) []
      ∧ start ∈ (adjacency.walkFrom progress start).entered
      ∧ ∀ id ∈ progress.entered, id ∈ (adjacency.walkFrom progress start).entered := by
  rw [Adjacency.walkFrom]
  split
  · next seen => exact ⟨walking, seen, fun _ member => member⟩
  · next fresh =>
      obtain ⟨walked, kept⟩ := (walking.enter fresh (by simp)).walk
      exact ⟨walked, kept start Std.ExtTreeSet.mem_insert_self, fun id member =>
        kept id (Std.ExtTreeSet.mem_insert.mpr (Or.inr member))⟩

/-- Each start was entered when the pass has walked from all of them. -/
theorem Walking.foldl_walkFrom {progress : Progress} (walking : adjacency.Walking progress [])
    (starts : List String)
    : adjacency.Walking (starts.foldl adjacency.walkFrom progress) []
      ∧ (∀ start ∈ starts, start ∈ (starts.foldl adjacency.walkFrom progress).entered)
      ∧ ∀ id ∈ progress.entered, id ∈ (starts.foldl adjacency.walkFrom progress).entered := by
  induction starts generalizing progress with
  | nil => exact ⟨walking, by simp, fun _ member => member⟩
  | cons start rest ih =>
      obtain ⟨walked, here, kept⟩ := walking.walkFrom start
      obtain ⟨all, later, keptLater⟩ := ih walked
      refine ⟨all, fun other member => ?_, fun id member => keptLater id (kept id member)⟩
      rcases List.mem_cons.mp member with rfl | further
      · exact keptLater other here
      · exact later other further

/-- The first pass is done with each node once, in an order of the kind above, and with all nodes
that have a successor. -/
theorem finishOrder_inOrder (adjacency : Adjacency)
    : adjacency.FinishedInOrder adjacency.finishOrder
      ∧ adjacency.finishOrder.Nodup
      ∧ ∀ source target, adjacency.Step source target → source ∈ adjacency.finishOrder := by
  obtain ⟨walked, all, -⟩ := (Walking.initial adjacency).foldl_walkFrom adjacency.keys
  refine ⟨walked.inOrder, walked.unique, fun source target step => ?_⟩
  rcases (walked.entered_iff source).mp (all source step.mem_keys) with stacked | finished
  · exact absurd stacked List.not_mem_nil
  · exact finished

end Traceability.Adjacency
