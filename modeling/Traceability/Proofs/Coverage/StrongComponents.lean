import Mathlib.Data.List.Nodup
import Mathlib.Logic.Relation
import Traceability.Proofs.Coverage.FinishOrder
import Traceability.Proofs.Sorting

/-! The second pass finds the strongly connected components.
It goes through the nodes from the one that the first pass was done with last. What leads to a node
and is in no component yet was done before it, and so there is a way back: a way to the node either
stays among what was done before, or it passes a node of the same component that was done later.
-/

namespace Traceability.Adjacency

open Relation

variable {adjacency : Adjacency}

-----------------------------------------------------------------------------------------
-- Steps backwards
-----------------------------------------------------------------------------------------

theorem mem_steps_iff {source target : String}
    : (source, target) ∈ adjacency.steps ↔ adjacency.Step source target := by
  rw [steps, List.mem_flatMap, step_iff]
  constructor
  · intro ⟨⟨id, targets⟩, entry, member⟩
    obtain ⟨other, listed, same⟩ := List.mem_map.mp member
    obtain ⟨rfl, rfl⟩ := Prod.mk.inj same
    exact ⟨targets, Std.ExtTreeMap.mem_toList_iff_getElem?_eq_some.mp entry,
      Std.ExtTreeSet.mem_toList.mp listed⟩
  · intro ⟨targets, found, member⟩
    exact ⟨(source, targets), Std.ExtTreeMap.mem_toList_iff_getElem?_eq_some.mpr found,
      List.mem_map_of_mem (Std.ExtTreeSet.mem_toList.mpr member)⟩

/-- Each step adds its source to those of its target. -/
private theorem mem_foldl_sources (steps : List (String × String))
    (sources : Std.ExtTreeMap String (List String)) (source target : String)
    : source
        ∈ (steps.foldl
            (fun sources (source, target) =>
              sources.alter target (fun ids => some (ids.getD [] ++ [source])))
            sources)[target]?.getD []
      ↔ source ∈ sources[target]?.getD [] ∨ (source, target) ∈ steps := by
  induction steps generalizing sources with
  | nil => simp
  | cons step rest ih =>
      obtain ⟨origin, goal⟩ := step
      rw [List.foldl_cons, ih, List.mem_cons, ← or_assoc, Prod.mk.injEq]
      refine or_congr_left ?_
      simp only [Std.ExtTreeMap.getElem?_alter, Std.LawfulEqCmp.compare_eq_iff_eq]
      by_cases same : goal = target
      · subst same
        simp
      · simp [same, Ne.symm same]

theorem mem_transposed_iff {source target : String}
    : source ∈ adjacency.transposed[target]?.getD [] ↔ adjacency.Step source target := by
  rw [transposed, mem_foldl_sources, mem_steps_iff]
  simp

-----------------------------------------------------------------------------------------
-- Collecting what leads to a node
-----------------------------------------------------------------------------------------

namespace Collection

/-- A collection takes nodes that were in no component: they become members, on top of the stack. -/
structure Takes (before after : Collection) (new : List String) : Prop where
  members : after.members = new ++ before.members
  stack : after.stack = new ++ before.stack
  assigned_iff : ∀ id, id ∈ after.assigned ↔ id ∈ new ∨ id ∈ before.assigned
  unique : new.Nodup
  fresh : ∀ id ∈ new, id ∉ before.assigned

theorem Takes.none (collection : Collection) : Takes collection collection [] where
  members := rfl
  stack := rfl
  assigned_iff := by simp
  unique := List.nodup_nil
  fresh := by simp

theorem Takes.trans {before between after : Collection} {first second : List String}
    (takes : Takes before between first) (further : Takes between after second)
    : Takes before after (second ++ first) where
  members := by rw [further.members, takes.members, List.append_assoc]
  stack := by rw [further.stack, takes.stack, List.append_assoc]
  assigned_iff := by
    intro id
    rw [further.assigned_iff, takes.assigned_iff, List.mem_append, or_assoc]
  unique := by
    refine List.nodup_append'.mpr ⟨further.unique, takes.unique, fun id there here => ?_⟩
    exact further.fresh id there ((takes.assigned_iff id).mpr (Or.inl here))
  fresh := by
    intro id member old
    rcases List.mem_append.mp member with there | here
    · exact further.fresh id there ((takes.assigned_iff id).mpr (Or.inr old))
    · exact takes.fresh id here old

theorem exists_takes_take (collection : Collection) (id : String)
    : ∃ new,
        Takes collection (collection.take id) new
        ∧ (∀ other ∈ new, other = id)
        ∧ id ∈ (collection.take id).assigned := by
  rw [take]
  split
  · next old => exact ⟨[], .none collection, by simp, old⟩
  · next fresh =>
      refine ⟨[id], ⟨rfl, rfl, fun other => ?_, List.nodup_singleton id, ?_⟩,
        fun _ => List.mem_singleton.mp, Std.ExtTreeSet.mem_insert_self⟩
      · rw [Std.ExtTreeSet.mem_insert, Std.LawfulEqCmp.compare_eq_iff_eq, List.mem_singleton,
          eq_comm]
      · exact List.forall_mem_singleton.mpr fresh

/-- Taking several nodes takes those that are new, and then all of them are in a component. -/
theorem exists_takes_foldl_take (ids : List String) (collection : Collection)
    : ∃ new,
        Takes collection (ids.foldl take collection) new
        ∧ (∀ id ∈ new, id ∈ ids)
        ∧ ∀ id ∈ ids, id ∈ (ids.foldl take collection).assigned := by
  induction ids generalizing collection with
  | nil => exact ⟨[], .none collection, by simp, by simp⟩
  | cons first rest ih =>
      obtain ⟨new, takes, only, here⟩ := exists_takes_take collection first
      obtain ⟨more, further, listed, all⟩ := ih (collection.take first)
      refine ⟨more ++ new, takes.trans further, fun id member => ?_, fun id member => ?_⟩
      · rcases List.mem_append.mp member with later | now
        · exact List.mem_cons_of_mem first (listed id later)
        · exact only id now ▸ List.mem_cons_self
      · rcases List.mem_cons.mp member with rfl | later
        · exact (further.assigned_iff id).mpr (Or.inr here)
        · exact all id later

end Collection

/-- What holds while the component of a node is collected. Its members lead to the node and were in
no component before, and the sources of the steps to a member are in a component, unless the member
is still on the stack. -/
structure Collecting (adjacency : Adjacency) (earlier : Std.ExtTreeSet String) (start : String)
    (collection : Collection)
    : Prop where
  assigned_iff : ∀ id, id ∈ collection.assigned ↔ id ∈ collection.members ∨ id ∈ earlier
  started : start ∈ collection.members
  apart : ∀ id ∈ collection.members, id ∉ earlier
  unique : collection.members.Nodup
  reaches : ∀ id ∈ collection.members, adjacency.Reaches id start
  stacked : ∀ id ∈ collection.stack, id ∈ collection.members
  closed
    : ∀ id ∈ collection.members,
        id ∈ collection.stack
        ∨ ∀ source, adjacency.Step source id → source ∈ collection.assigned

namespace Collecting

variable {earlier : Std.ExtTreeSet String} {start : String}

theorem initial (fresh : start ∉ earlier)
    : adjacency.Collecting earlier start ⟨earlier.insert start, [start], [start]⟩ where
  assigned_iff := by
    intro id
    rw [Std.ExtTreeSet.mem_insert, Std.LawfulEqCmp.compare_eq_iff_eq, List.mem_singleton, eq_comm]
  started := List.mem_cons_self
  apart := by
    intro id member
    rw [List.mem_singleton.mp member]
    exact fresh
  unique := List.nodup_singleton start
  reaches := by
    intro id member
    rw [List.mem_singleton.mp member]
  stacked := fun _ member => member
  closed := fun _ member => Or.inl member

/-- Going on from the node on top: what is new leads to it, and so to the start. -/
theorem next {assigned : Std.ExtTreeSet String} {members stack : List String} {id : String}
    (collecting : adjacency.Collecting earlier start ⟨assigned, members, id :: stack⟩)
    : adjacency.Collecting earlier start
        ((adjacency.transposed[id]?.getD []).foldl Collection.take
          ⟨assigned, members, stack⟩) := by
  obtain ⟨new, takes, listed, all⟩ :=
    Collection.exists_takes_foldl_take (adjacency.transposed[id]?.getD [])
      ⟨assigned, members, stack⟩
  have here : id ∈ members := collecting.stacked id List.mem_cons_self
  have apart (other : String) (member : other ∈ new) : other ∉ members ∧ other ∉ earlier := by
    have outside := takes.fresh other member
    exact ⟨fun old => outside ((collecting.assigned_iff other).mpr (Or.inl old)),
      fun old => outside ((collecting.assigned_iff other).mpr (Or.inr old))⟩
  exact {
    assigned_iff := by
      intro other
      rw [takes.assigned_iff, takes.members, List.mem_append, or_assoc]
      exact or_congr_right (collecting.assigned_iff other)
    started := by
      rw [takes.members]
      exact List.mem_append_right _ collecting.started
    apart := by
      intro other member
      rw [takes.members] at member
      rcases List.mem_append.mp member with taken | old
      · exact (apart other taken).2
      · exact collecting.apart other old
    unique := by
      rw [takes.members, List.nodup_append']
      exact ⟨takes.unique, collecting.unique, fun other taken old => (apart other taken).1 old⟩
    reaches := by
      intro other member
      rw [takes.members] at member
      rcases List.mem_append.mp member with taken | old
      · have step : adjacency.Step other id := mem_transposed_iff.mp (listed other taken)
        exact (collecting.reaches id here).head step
      · exact collecting.reaches other old
    stacked := by
      intro other member
      rw [takes.stack] at member
      rw [takes.members]
      rcases List.mem_append.mp member with taken | old
      · exact List.mem_append_left _ taken
      · exact List.mem_append_right _ (collecting.stacked other (List.mem_cons_of_mem id old))
    closed := by
      intro other member
      rw [takes.members] at member
      rw [takes.stack]
      rcases List.mem_append.mp member with taken | old
      · exact Or.inl (List.mem_append_left _ taken)
      · rcases collecting.closed other old with stacked | closed
        · rcases List.mem_cons.mp stacked with rfl | below
          · exact Or.inr (fun source step => all source (mem_transposed_iff.mpr step))
          · exact Or.inl (List.mem_append_right _ below)
        · exact Or.inr (fun source step =>
            (takes.assigned_iff source).mpr (Or.inr (closed source step))) }

/-- The collection goes on until its stack is empty. Witness: induction along it. -/
theorem collect {collection : Collection}
    (collecting : adjacency.Collecting earlier start collection)
    : adjacency.Collecting earlier start (Adjacency.collect adjacency.transposed collection)
      ∧ (Adjacency.collect adjacency.transposed collection).stack = [] := by
  induction collection using Adjacency.collect.induct adjacency.transposed with
  | case1 assigned members =>
      rw [Adjacency.collect]
      exact ⟨collecting, rfl⟩
  | case2 assigned members id stack ih =>
      rw [Adjacency.collect]
      exact ih collecting.next

end Collecting

-----------------------------------------------------------------------------------------
-- One component
-----------------------------------------------------------------------------------------

/-- There are ways between the nodes in both directions. -/
def Connected (adjacency : Adjacency) (a b : String) : Prop :=
  adjacency.Reaches a b ∧ adjacency.Reaches b a

theorem Connected.trans {a b c : String} (h : adjacency.Connected a b)
    (further : adjacency.Connected b c)
    : adjacency.Connected a c :=
  ⟨h.1.trans further.1, further.2.trans h.2⟩

/-- What holds between two components. The nodes in a component are all that are connected with one
of them. The rest of the finish order is left, and no node with a step is missing from both. -/
structure Remaining (adjacency : Adjacency) (assigned : Std.ExtTreeSet String)
    (rest : List String)
    : Prop where
  inOrder : adjacency.FinishedInOrder rest
  unique : rest.Nodup
  covered : ∀ source target, adjacency.Step source target → source ∈ assigned ∨ source ∈ rest
  whole : ∀ a ∈ assigned, ∀ b, adjacency.Connected a b → b ∈ assigned

namespace Remaining

variable {assigned : Std.ExtTreeSet String} {start : String} {rest : List String}

theorem mem_of_reaches (remaining : adjacency.Remaining assigned (start :: rest)) {id : String}
    (fresh : id ∉ assigned) (way : adjacency.Reaches id start)
    : id ∈ start :: rest := by
  cases way using ReflTransGen.head_induction_on with
  | refl => exact List.mem_cons_self
  | head step _ => exact (remaining.covered _ _ step).resolve_left fresh

/-- What leads to the first node that is left, and is in no component, can be reached from it.
Witness: the node itself was done later, and a node that was done before it leaves what was done by
then for a node of the same component, which stands closer to the first in the order. -/
theorem reaches_of_reaches (remaining : adjacency.Remaining assigned (start :: rest)) {id : String}
    (fresh : id ∉ assigned) (way : adjacency.Reaches id start)
    : adjacency.Reaches start id := by
  obtain ⟨later, earlier, split⟩ :=
    List.append_of_mem (remaining.mem_of_reaches fresh way)
  induction distance : later.length using Nat.strongRecOn generalizing id later earlier with
  | ind distance closer =>
    subst distance
    have inOrder : adjacency.FinishedInOrder (id :: earlier) :=
      (split ▸ remaining.inOrder).of_append
    rcases inOrder.leaves List.mem_cons_self way with done | ⟨exit, outside, there, back, onward⟩
    · cases later with
      | nil => rw [(List.cons.inj split).1]
      | cons first more =>
          obtain ⟨rfl, rfl⟩ := List.cons.inj split
          exact absurd (List.mem_append_right more done) (List.nodup_cons.mp remaining.unique).1
    · have freshExit : exit ∉ assigned := fun old =>
        fresh (remaining.whole exit old id ⟨back, there⟩)
      have listed := remaining.mem_of_reaches freshExit onward
      rw [split] at listed
      obtain ⟨above, below, between⟩ :=
        List.append_of_mem ((List.mem_append.mp listed).resolve_right outside)
      have shorter : above.length < later.length := by
        rw [between, List.length_append, List.length_cons]
        omega
      have splitExit : start :: rest = above ++ exit :: (below ++ id :: earlier) := by
        rw [split, between, List.append_assoc, List.cons_append]
      exact (closer above.length shorter freshExit onward above _ splitExit rfl).trans back

/-- The component that is collected from the first node that is left. -/
theorem mem_members_iff (remaining : adjacency.Remaining assigned (start :: rest))
    {collection : Collection} (collecting : adjacency.Collecting assigned start collection)
    (done : collection.stack = []) (id : String)
    : id ∈ collection.members ↔ adjacency.Connected start id := by
  constructor
  · intro member
    have way := collecting.reaches id member
    exact ⟨remaining.reaches_of_reaches (collecting.apart id member) way, way⟩
  · intro connected
    -- All nodes on the way back to the start are in its component, so none was taken before.
    have way : adjacency.Reaches id start := connected.2
    have there : adjacency.Reaches start id := connected.1
    clear connected
    induction way using ReflTransGen.head_induction_on with
    | refl => exact collecting.started
    | @head id next step onward ih =>
        have member := ih (there.tail step)
        have closed := (collecting.closed next member).resolve_left (by rw [done]; simp)
        refine ((collecting.assigned_iff id).mp (closed id step)).resolve_right (fun old => ?_)
        exact collecting.apart start collecting.started
          (remaining.whole id old start ⟨onward.head step, there⟩)

/-- With the component of the first node that is left, the rest is left. -/
theorem next (remaining : adjacency.Remaining assigned (start :: rest))
    {collection : Collection} (collecting : adjacency.Collecting assigned start collection)
    (done : collection.stack = [])
    : adjacency.Remaining collection.assigned rest where
  inOrder := by
    cases remaining.inOrder with
    | cons _ before => exact before
  unique := remaining.unique.of_cons
  covered := by
    intro source target step
    simp only [collecting.assigned_iff]
    rcases remaining.covered source target step with old | listed
    · exact Or.inl (Or.inr old)
    · rcases List.mem_cons.mp listed with rfl | later
      · exact Or.inl (Or.inl collecting.started)
      · exact Or.inr later
  whole := by
    intro a member b connected
    rw [collecting.assigned_iff] at member ⊢
    rcases member with taken | old
    · have onto := (remaining.mem_members_iff collecting done _).mp taken
      exact Or.inl ((remaining.mem_members_iff collecting done _).mpr (onto.trans connected))
    · exact Or.inr (remaining.whole a old b connected)

/-- A node that is in a component already is passed over. -/
theorem pass (remaining : adjacency.Remaining assigned (start :: rest)) (seen : start ∈ assigned)
    : adjacency.Remaining assigned rest where
  inOrder := by
    cases remaining.inOrder with
    | cons _ before => exact before
  unique := remaining.unique.of_cons
  covered := by
    intro source target step
    rcases remaining.covered source target step with old | listed
    · exact Or.inl old
    · rcases List.mem_cons.mp listed with rfl | later
      · exact Or.inl seen
      · exact Or.inr later
  whole := remaining.whole

end Remaining

-----------------------------------------------------------------------------------------
-- All components with a cycle
-----------------------------------------------------------------------------------------

/-- There are ways of one or more steps between the nodes in both directions. -/
def OnOneCycle (adjacency : Adjacency) (a b : String) : Prop :=
  TransGen adjacency.Step a b ∧ TransGen adjacency.Step b a

theorem OnOneCycle.connected {a b : String} (h : adjacency.OnOneCycle a b)
    : adjacency.Connected a b :=
  ⟨h.1.to_reflTransGen, h.2.to_reflTransGen⟩

/-- Nodes that are connected with a node on a cycle are on one cycle. -/
theorem Connected.onOneCycle {start a b : String} (here : adjacency.Connected start a)
    (cyclic : TransGen adjacency.Step start start) (there : adjacency.Connected start b)
    : adjacency.OnOneCycle a b :=
  ⟨(cyclic.trans_right here.2).trans_left there.1, (cyclic.trans_right there.2).trans_left here.1⟩

/-- A sorted list of all nodes that are on one cycle with its nodes. -/
structure IsCycle (adjacency : Adjacency) (ids : List String) : Prop where
  nonempty : ids ≠ []
  ordered : ids.Pairwise (· < ·)
  whole : ∀ a ∈ ids, ∀ b, b ∈ ids ↔ adjacency.OnOneCycle a b

/-- A component holds a cycle if it has several members or a step from a member to itself. -/
theorem transGen_self_iff {start : String} {members : List String} (unique : members.Nodup)
    (mem_iff : ∀ id, id ∈ members ↔ adjacency.Connected start id)
    : TransGen adjacency.Step start start
      ↔ 1 < members.length ∨ start ∈ adjacency.successors start := by
  have started : start ∈ members := (mem_iff start).mpr ⟨.refl, .refl⟩
  constructor
  · intro cyclic
    obtain ⟨next, step, back⟩ := TransGen.head'_iff.mp cyclic
    have member : next ∈ members := (mem_iff next).mpr ⟨.single step, back⟩
    by_cases same : next = start
    · exact Or.inr (same ▸ step)
    · refine Or.inl (Nat.lt_of_not_le (fun short => same ?_))
      obtain ⟨only, rfl⟩ := List.length_eq_one_iff.mp
        (Nat.le_antisymm short (List.length_pos_of_mem started))
      rw [List.mem_singleton.mp member, List.mem_singleton.mp started]
  · intro given
    rcases given with several | loop
    · obtain ⟨other, member, apart⟩ : ∃ other ∈ members, other ≠ start := by
        by_contra alone
        have only : members = List.replicate members.length start :=
          List.eq_replicate_of_mem (fun other member =>
            by_contra (fun apart => alone ⟨other, member, apart⟩))
        rw [only, List.nodup_replicate] at unique
        exact absurd unique (Nat.not_le_of_lt several)
      obtain ⟨there, back⟩ := (mem_iff other).mp member
      have forth := (reflTransGen_iff_eq_or_transGen.mp there).resolve_left apart
      exact forth.trans_left back
    · exact .single loop

/-- A list of the cycles whose nodes are in no component yet, each once. -/
structure ListsCycles (adjacency : Adjacency) (assigned : Std.ExtTreeSet String)
    (components : List (List String))
    : Prop where
  isCycle : ∀ ids ∈ components, adjacency.IsCycle ids
  fresh : ∀ ids ∈ components, ∀ id ∈ ids, id ∉ assigned
  complete
    : ∀ id, id ∉ assigned → TransGen adjacency.Step id id → ∃ ids ∈ components, id ∈ ids
  disjoint : components.Pairwise List.Disjoint

namespace Remaining

section Collected

variable {assigned : Std.ExtTreeSet String} {start : String} {rest : List String}
  {collection : Collection} {components : List (List String)}
  (remaining : adjacency.Remaining assigned (start :: rest))
  (collecting : adjacency.Collecting assigned start collection) (done : collection.stack = [])
include remaining collecting done

/-- A component is a cycle if it has several members or a step from its start to itself. -/
theorem isCycle (cyclic : 1 < collection.members.length ∨ start ∈ adjacency.successors start)
    : adjacency.IsCycle (collection.members.mergeSort (fun a b => (compare a b).isLE)) := by
  have mem_iff := remaining.mem_members_iff collecting done
  have around := (transGen_self_iff collecting.unique mem_iff).mpr cyclic
  have strict
      : (collection.members.mergeSort (fun a b => (compare a b).isLE)).Pairwise
          (fun a b => compare a b = .lt) :=
    pairwise_mergeSort_lt collecting.unique
  exact {
    nonempty := List.ne_nil_of_mem (List.mem_mergeSort.mpr collecting.started)
    ordered := strict.imp compareOfLessAndEq_eq_lt.mp
    whole := by
      intro a member b
      rw [List.mem_mergeSort, mem_iff] at member ⊢
      exact ⟨fun there => member.onOneCycle around there,
        fun onCycle => member.trans onCycle.connected⟩ }

/-- A component that is a cycle is listed in front of the others. -/
theorem listsCycles_cons
    (cyclic : 1 < collection.members.length ∨ start ∈ adjacency.successors start)
    (others : adjacency.ListsCycles collection.assigned components)
    : adjacency.ListsCycles assigned
        (collection.members.mergeSort (fun a b => (compare a b).isLE) :: components) where
  isCycle :=
    List.forall_mem_cons.mpr ⟨remaining.isCycle collecting done cyclic, others.isCycle⟩
  fresh := by
    refine List.forall_mem_cons.mpr ⟨fun id member => ?_, fun ids listed id member old => ?_⟩
    · exact collecting.apart id (List.mem_mergeSort.mp member)
    · exact others.fresh ids listed id member ((collecting.assigned_iff id).mpr (Or.inr old))
  complete := by
    intro id fresh around
    by_cases here : id ∈ collection.members
    · exact ⟨_, List.mem_cons_self, List.mem_mergeSort.mpr here⟩
    · have outside : id ∉ collection.assigned := fun taken =>
        ((collecting.assigned_iff id).mp taken).elim here fresh
      obtain ⟨ids, listed, member⟩ := others.complete id outside around
      exact ⟨ids, List.mem_cons_of_mem _ listed, member⟩
  disjoint := by
    refine List.pairwise_cons.mpr ⟨fun ids listed id here there => ?_, others.disjoint⟩
    refine others.fresh ids listed id there ((collecting.assigned_iff id).mpr (Or.inl ?_))
    exact List.mem_mergeSort.mp here

/-- No node of a component that is no cycle is on one. -/
theorem listsCycles_skip
    (acyclic : ¬ (1 < collection.members.length ∨ start ∈ adjacency.successors start))
    (others : adjacency.ListsCycles collection.assigned components)
    : adjacency.ListsCycles assigned components where
  isCycle := others.isCycle
  fresh := fun ids listed id member old =>
    others.fresh ids listed id member ((collecting.assigned_iff id).mpr (Or.inr old))
  complete := by
    intro id fresh around
    refine others.complete id (fun taken => ?_) around
    have here := ((collecting.assigned_iff id).mp taken).resolve_right fresh
    have mem_iff := remaining.mem_members_iff collecting done
    have connected := (mem_iff id).mp here
    refine acyclic ((transGen_self_iff collecting.unique mem_iff).mp ?_)
    exact (around.trans_right connected.1).trans_left connected.2
  disjoint := others.disjoint

end Collected

/-- The components that hold a cycle are listed. Witness: induction along the finish order. -/
theorem cyclicComponents {assigned : Std.ExtTreeSet String} {rest : List String}
    (remaining : adjacency.Remaining assigned rest)
    : adjacency.ListsCycles assigned
        (adjacency.cyclicComponents adjacency.transposed assigned rest) := by
  induction rest generalizing assigned with
  | nil =>
      refine ⟨List.forall_mem_nil _, List.forall_mem_nil _, fun id fresh around => ?_, .nil⟩
      obtain ⟨next, step, -⟩ := TransGen.head'_iff.mp around
      exact absurd ((remaining.covered id next step).resolve_left fresh) List.not_mem_nil
  | cons start rest ih =>
      rw [Adjacency.cyclicComponents]
      by_cases seen : start ∈ assigned
      · rw [if_pos seen]
        exact ih (remaining.pass seen)
      · rw [if_neg seen]
        have started
            : adjacency.Collecting assigned start ⟨assigned.insert start, [start], [start]⟩ :=
          .initial seen
        obtain ⟨collecting, done⟩ := started.collect
        have others := ih (remaining.next collecting done)
        dsimp only
        split
        · next cyclic => exact remaining.listsCycles_cons collecting done cyclic others
        · next acyclic => exact remaining.listsCycles_skip collecting done acyclic others

end Remaining

/-- The first and the second pass together list the cycles, each once. -/
theorem cyclicComponents_finishOrder (adjacency : Adjacency)
    : adjacency.ListsCycles ∅
        (adjacency.cyclicComponents adjacency.transposed ∅ adjacency.finishOrder) := by
  obtain ⟨inOrder, unique, covered⟩ := adjacency.finishOrder_inOrder
  have remaining : adjacency.Remaining ∅ adjacency.finishOrder := {
    inOrder
    unique
    covered := fun source target step => Or.inr (covered source target step)
    whole := fun a member => absurd member Std.ExtTreeSet.not_mem_empty
  }
  exact remaining.cyclicComponents

end Traceability.Adjacency
