import Std.Data.ExtTreeMap
import Std.Data.ExtTreeSet

/-! Strongly connected components of a directed graph, found in two passes.
The first pass follows the steps of the graph in depth and notes in which order it is done with the
nodes. The second takes the nodes in the opposite order, follows the steps backwards, and all that
it meets for the first time from one node is a component. Both keep a stack of their own.
-/

namespace Traceability

/-- The identifiers of a list that are not in a set. -/
def missing (ids : List String) (set : Std.ExtTreeSet String) : List String :=
  ids.filter (fun id => id ∉ set)

theorem missing_insert (ids : List String) (set : Std.ExtTreeSet String) (id : String)
    : missing ids (set.insert id) = (missing ids set).filter (fun other => other ≠ id) := by
  rw [missing, missing, List.filter_filter]
  refine List.filter_congr (fun other _ => ?_)
  rw [Bool.eq_iff_iff, Bool.and_eq_true, decide_eq_true_eq, decide_eq_true_eq, decide_eq_true_eq,
    Std.ExtTreeSet.mem_insert, Std.LawfulEqCmp.compare_eq_iff_eq, not_or, ne_comm]

theorem length_missing_insert_le (ids : List String) (set : Std.ExtTreeSet String) (id : String)
    : (missing ids (set.insert id)).length ≤ (missing ids set).length := by
  rw [missing_insert]
  exact List.length_filter_le _ _

theorem length_missing_insert_lt {ids : List String} {set : Std.ExtTreeSet String} {id : String}
    (member : id ∈ ids) (fresh : id ∉ set)
    : (missing ids (set.insert id)).length < (missing ids set).length := by
  rw [missing_insert, List.length_filter_lt_length_iff_exists]
  exact ⟨id, List.mem_filter.mpr ⟨member, decide_eq_true fresh⟩, by simp⟩

/-- The successors of the nodes of a directed graph. A node without an entry has none. -/
abbrev Adjacency := Std.ExtTreeMap String (Std.ExtTreeSet String)

namespace Adjacency

def successors (adjacency : Adjacency) (id : String) : List String :=
  (adjacency[id]?.getD ∅).toList

/-- The steps of the graph, each from its source to its target. -/
def steps (adjacency : Adjacency) : List (String × String) :=
  adjacency.toList.flatMap (fun (source, targets) =>
    targets.toList.map (fun target => (source, target)))

/-- The sources of the steps to each node. -/
def transposed (adjacency : Adjacency) : Std.ExtTreeMap String (List String) :=
  adjacency.steps.foldl
    (fun sources (source, target) =>
      sources.alter target (fun ids => some (ids.getD [] ++ [source])))
    ∅

-----------------------------------------------------------------------------------------
-- The first pass
-----------------------------------------------------------------------------------------

/-- A node on the stack of the first pass, with its successors that are still ahead. -/
structure Frame where
  id : String
  ahead : List String
deriving Repr, DecidableEq

/-- How far the first pass has come: the nodes that it has entered, and those that it is done with,
the last one first. -/
structure Progress where
  entered : Std.ExtTreeSet String := ∅
  finished : List String := []

/-- Looking at a successor shortens a frame, and so does leaving a node. A frame that is put on the
stack is long only if its node has an entry, and then one node less is left to be entered. -/
def workLeft (adjacency : Adjacency) (progress : Progress) (stack : List Frame) : Nat × Nat :=
  ((missing adjacency.keys progress.entered).length,
    stack.foldr (fun frame work => 2 * frame.ahead.length + 1 + work) 0)

theorem workLeft_enter {adjacency : Adjacency} {progress : Progress} {id next : String}
    (ahead : List String) (stack : List Frame) (fresh : next ∉ progress.entered)
    : Prod.Lex (· < ·) (· < ·)
        (adjacency.workLeft { progress with entered := progress.entered.insert next }
          (⟨next, adjacency.successors next⟩ :: ⟨id, ahead⟩ :: stack))
        (adjacency.workLeft progress (⟨id, next :: ahead⟩ :: stack)) := by
  by_cases known : next ∈ adjacency
  · exact .left _ _ (length_missing_insert_lt (Std.ExtTreeMap.mem_keys.mpr known) fresh)
  · have fewer := length_missing_insert_le adjacency.keys progress.entered next
    have none : adjacency.successors next = [] := by
      rw [successors, Std.ExtTreeMap.getElem?_eq_none known]
      rfl
    rcases Nat.lt_or_eq_of_le fewer with less | same
    · exact .left _ _ less
    · rw [workLeft, workLeft, same, none]
      refine .right _ ?_
      simp only [List.foldr_cons, List.length_cons, List.length_nil]
      omega

/-- Goes on until the stack is empty: looks at the next successor of the node on top and enters it
unless it was entered before, or is done with the node on top. -/
def walk (adjacency : Adjacency) (progress : Progress) : List Frame → Progress
  | [] => progress
  | ⟨id, []⟩ :: stack =>
      adjacency.walk { progress with finished := id :: progress.finished } stack
  | ⟨id, next :: ahead⟩ :: stack =>
      if next ∈ progress.entered then adjacency.walk progress (⟨id, ahead⟩ :: stack)
      else
        adjacency.walk { progress with entered := progress.entered.insert next }
          (⟨next, adjacency.successors next⟩ :: ⟨id, ahead⟩ :: stack)
termination_by stack => adjacency.workLeft progress stack
decreasing_by
  · exact .right _ (by simp)
  · exact .right _ (by simp)
  · exact workLeft_enter ahead stack ‹_›

/-- Walks from a node, unless it was entered before. -/
def walkFrom (adjacency : Adjacency) (progress : Progress) (start : String) : Progress :=
  if start ∈ progress.entered then progress
  else
    adjacency.walk { progress with entered := progress.entered.insert start }
      [⟨start, adjacency.successors start⟩]

/-- The nodes in the order in which the first pass is done with them, the last one first. -/
def finishOrder (adjacency : Adjacency) : List String :=
  (adjacency.keys.foldl adjacency.walkFrom {}).finished

-----------------------------------------------------------------------------------------
-- The second pass
-----------------------------------------------------------------------------------------

/-- A component that is being collected: the nodes of this component and of those before it, its
own members, and those members from which the pass has yet to go on. -/
structure Collection where
  assigned : Std.ExtTreeSet String
  members : List String
  stack : List String

namespace Collection

/-- Takes a node into the component, unless it is in one. -/
def take (collection : Collection) (id : String) : Collection :=
  if id ∈ collection.assigned then collection
  else
    { assigned := collection.assigned.insert id
      members := id :: collection.members
      stack := id :: collection.stack }

/-- The sources of any steps. -/
def targeting (sources : Std.ExtTreeMap String (List String)) : List String :=
  sources.toList.flatMap Prod.snd

/-- What is put on the stack was not in a component before, and it is the source of a step. -/
def workLeft (sources : Std.ExtTreeMap String (List String)) (collection : Collection) : Nat :=
  (missing (targeting sources) collection.assigned).length + collection.stack.length

theorem workLeft_take_le {sources : Std.ExtTreeMap String (List String)} {id : String}
    (listed : id ∈ targeting sources) (collection : Collection)
    : (collection.take id).workLeft sources ≤ collection.workLeft sources := by
  rw [take]
  split
  · exact Nat.le_refl _
  · next fresh =>
      have fewer := length_missing_insert_lt listed fresh
      simp only [workLeft, List.length_cons]
      omega

theorem workLeft_foldl_take_le {sources : Std.ExtTreeMap String (List String)} {ids : List String}
    (listed : ∀ id ∈ ids, id ∈ targeting sources) (collection : Collection)
    : (ids.foldl take collection).workLeft sources ≤ collection.workLeft sources := by
  induction ids generalizing collection with
  | nil => exact Nat.le_refl _
  | cons id rest ih =>
      have later : ∀ other ∈ rest, other ∈ targeting sources :=
        fun other member => listed other (List.mem_cons_of_mem id member)
      exact Nat.le_trans (ih later _) (workLeft_take_le (listed id List.mem_cons_self) collection)

theorem mem_targeting {sources : Std.ExtTreeMap String (List String)} {id : String}
    : ∀ source ∈ sources[id]?.getD [], source ∈ targeting sources := by
  intro source member
  cases found : sources[id]? with
  | none =>
      rw [found] at member
      exact absurd member List.not_mem_nil
  | some ids =>
      rw [found] at member
      exact List.mem_flatMap.mpr
        ⟨(id, ids), Std.ExtTreeMap.mem_toList_iff_getElem?_eq_some.mpr found, member⟩

end Collection

/-- Goes on until the stack is empty: takes the sources of the steps to the node on top. -/
def collect (sources : Std.ExtTreeMap String (List String)) : Collection → Collection
  | ⟨assigned, members, []⟩ => ⟨assigned, members, []⟩
  | ⟨assigned, members, id :: stack⟩ =>
      collect sources ((sources[id]?.getD []).foldl Collection.take ⟨assigned, members, stack⟩)
termination_by collection => collection.workLeft sources
decreasing_by
  exact Nat.lt_of_le_of_lt (Collection.workLeft_foldl_take_le Collection.mem_targeting _)
    (Nat.lt_succ_self _)

/-- The components that hold a cycle, each sorted: those of several nodes, and nodes that have a
step to themselves. A component is collected from each node of the list that is in none yet. -/
def cyclicComponents (adjacency : Adjacency) (sources : Std.ExtTreeMap String (List String))
    (assigned : Std.ExtTreeSet String)
    : List String → List (List String)
  | [] => []
  | start :: rest =>
      if start ∈ assigned then adjacency.cyclicComponents sources assigned rest
      else
        let found := collect sources ⟨assigned.insert start, [start], [start]⟩
        let others := adjacency.cyclicComponents sources found.assigned rest
        if 1 < found.members.length ∨ start ∈ adjacency.successors start then
          found.members.mergeSort (fun a b => (compare a b).isLE) :: others
        else others

end Adjacency

end Traceability
