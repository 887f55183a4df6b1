import Mathlib.Data.List.Forall2
import Mathlib.Data.List.Nodup
import Traceability.Proofs.Config.Compile
import Traceability.Proofs.Rule.Budget
import Traceability.Run

/-! How the budget of a file is spent.
The findings of a file are walked in the order of their lines, and each takes a unit of the budget
of its line while there is one left. No other way of giving units to findings suppresses more, as
a unit that serves a finding serves all later ones as well.
-/

namespace Traceability

namespace Finding

/-- The first line of the place of a finding. -/
def line (finding : Finding) : Nat :=
  (finding.location.map Location.startLine).getD 0

/-- Whether a finding has its place in a file. -/
def isIn (path : String) (finding : Finding) : Bool :=
  finding.location.any (fun location => location.path == path)

theorem path_unique {finding : Finding} {a b : String} (inA : finding.isIn a = true)
    (inB : finding.isIn b = true)
    : a = b := by
  obtain ⟨place, present, here⟩ := (Option.any_eq_true _ _).mp inA
  obtain ⟨other, again, there⟩ := (Option.any_eq_true _ _).mp inB
  obtain rfl := Option.some.inj (present.symm.trans again)
  exact (eq_of_beq here).symm.trans (eq_of_beq there)

end Finding

/-- The suppression markers of a file. A file that is not recorded has none. -/
def Graph.markersOf (graph : Graph) (path : String) : List Suppression :=
  ((graph.files[path]?).map FileFacts.suppressions).getD []

namespace BrokenReference

-----------------------------------------------------------------------------------------
-- Units
-----------------------------------------------------------------------------------------

/-- The sum of the counts that markers announce before a line. -/
def announced (markers : List Suppression) (line : Nat) : Nat :=
  ((markers.filter (fun marker => marker.line < line)).map Suppression.count).sum

theorem toNat_foldl_count (markers : List Suppression) (total : UInt64)
    : (markers.foldl (fun total marker => total + UInt64.ofNat marker.count) total).toNat
      = (total.toNat + (markers.map Suppression.count).sum) % UInt64.size := by
  induction markers generalizing total with
  | nil => exact (Nat.mod_eq_of_lt total.toNat_lt).symm
  | cons marker rest ih =>
      rw [List.foldl_cons, ih, List.map_cons, List.sum_cons, UInt64.toNat_add,
        UInt64.toNat_ofNat', UInt64.size]
      omega

/-- The budget of a line is the sum of the counts before it, unless that is too large. -/
theorem toNat_budget {markers : List Suppression} {line : Nat}
    (fits : announced markers line < UInt64.size)
    : (budget markers line).toNat = announced markers line := by
  rw [budget, toNat_foldl_count, UInt64.toNat_zero, Nat.zero_add]
  exact Nat.mod_eq_of_lt fits

/-- The units that markers announce, each as the line of its marker. -/
def units (markers : List Suppression) : List Nat :=
  markers.flatMap (fun marker => List.replicate marker.count marker.line)

/-- What is announced before a line is the number of units before it. -/
theorem announced_eq_countP_units (markers : List Suppression) (line : Nat)
    : announced markers line = (units markers).countP (fun unit => unit < line) := by
  rw [announced, units, List.countP_flatMap]
  induction markers with
  | nil => rfl
  | cons marker rest ih =>
      rw [List.filter_cons, List.map_cons, List.sum_cons, Function.comp_apply,
        List.countP_replicate, ← ih]
      split
      · rw [List.map_cons, List.sum_cons]
      · rw [Nat.zero_add]

/-- Markers can pay for findings if each of them is given a unit that was announced before its
line, and no unit is given twice. -/
def Payable (markers : List Suppression) (paid : List Finding) : Prop :=
  ∃ spent kept,
    (spent ++ kept).Perm (units markers)
    ∧ List.Forall₂ (fun unit finding => unit < finding.line) spent paid

namespace Payable

variable {markers : List Suppression}

theorem nil : Payable markers [] :=
  ⟨[], units markers, .rfl, .nil⟩

/-- Who pays for less keeps the units of the rest. -/
theorem of_append {paid more : List Finding} (payable : Payable markers (paid ++ more))
    : Payable markers paid := by
  obtain ⟨spent, kept, all, matched⟩ := payable
  refine ⟨spent.take paid.length, spent.drop paid.length ++ kept, ?_,
    List.forall₂_take_append spent paid more matched⟩
  rw [← List.append_assoc, List.take_append_drop]
  exact all

/-- A finding can be paid for after others if they do not take all that is announced before its
line. Witness: a unit before the line is kept, as they leave fewer spent than there are. -/
theorem concat {paid : List Finding} (payable : Payable markers paid) {finding : Finding}
    (left : paid.length < announced markers finding.line)
    : Payable markers (paid ++ [finding]) := by
  obtain ⟨spent, kept, all, matched⟩ := payable
  have fewer : spent.countP (fun unit => unit < finding.line) ≤ paid.length :=
    matched.length_eq ▸ List.countP_le_length
  have some_kept : 0 < kept.countP (fun unit => unit < finding.line) := by
    rw [announced_eq_countP_units, ← all.countP_eq, List.countP_append] at left
    omega
  obtain ⟨unit, member, before⟩ := List.countP_pos_iff.mp some_kept
  refine ⟨spent ++ [unit], kept.erase unit, ?_,
    List.rel_append matched (.cons (of_decide_eq_true before) .nil)⟩
  rw [List.append_assoc]
  exact (List.Perm.append_left spent (List.perm_cons_erase member).symm).trans all

/-- Findings up to a line are paid for with what is announced before that line. -/
theorem length_le_announced {paid : List Finding} (payable : Payable markers paid) {line : Nat}
    (early : ∀ finding ∈ paid, finding.line ≤ line)
    : paid.length ≤ announced markers line := by
  obtain ⟨spent, kept, all, matched⟩ := payable
  have before : ∀ unit ∈ spent, unit < line := by
    clear all
    induction matched with
    | nil => simp
    | cons serves _ ih =>
        intro unit member
        rcases List.mem_cons.mp member with rfl | later
        · exact Nat.lt_of_lt_of_le serves (early _ List.mem_cons_self)
        · exact ih (fun finding found => early finding (List.mem_cons_of_mem _ found)) unit later
  calc paid.length
    _ = spent.length := matched.length_eq.symm
    _ = spent.countP (fun unit => unit < line) :=
        (List.countP_eq_length.mpr fun unit member => decide_eq_true (before unit member)).symm
    _ ≤ (spent ++ kept).countP (fun unit => unit < line) := by
        rw [List.countP_append]
        exact Nat.le_add_right _ _
    _ = announced markers line := by rw [all.countP_eq, announced_eq_countP_units]

end Payable

-----------------------------------------------------------------------------------------
-- In the order of lines
-----------------------------------------------------------------------------------------

/-- Each finding is suppressed exactly if those before it leave some of the budget of its line. -/
def InOrder (markers : List Suppression) (findings : List Finding) : Prop :=
  ∀ before finding after,
    findings = before ++ finding :: after
    → (finding.suppressed = true
        ↔ before.countP Finding.suppressed
          < ((markers.filter (fun marker => marker.line < finding.line)).map
              Suppression.count).sum)

namespace InOrder

variable {markers : List Suppression} {findings : List Finding} {finding : Finding}

theorem of_append {more : List Finding} (inOrder : InOrder markers (findings ++ more))
    : InOrder markers findings := by
  intro before finding after split
  refine inOrder before finding (after ++ more) ?_
  rw [split, List.append_assoc, List.cons_append]

theorem suppressed_last_iff (inOrder : InOrder markers (findings ++ [finding]))
    : finding.suppressed = true
      ↔ findings.countP Finding.suppressed < announced markers finding.line :=
  inOrder findings finding [] rfl

/-- Only findings after some marker are suppressed. -/
theorem exists_marker_of_suppressed (inOrder : InOrder markers findings)
    (member : finding ∈ findings) (suppressed : finding.suppressed = true)
    : ∃ marker ∈ markers, marker.line < finding.line := by
  obtain ⟨before, after, split⟩ := List.append_of_mem member
  have left := (inOrder before finding after split).mp suppressed
  by_contra unannounced
  have empty : markers.filter (fun marker => marker.line < finding.line) = [] :=
    List.filter_eq_nil_iff.mpr fun marker listed early =>
      unannounced ⟨marker, listed, of_decide_eq_true early⟩
  rw [empty] at left
  exact Nat.not_lt_zero _ left

/-- Each suppressed finding has a unit of its own, by induction from the last finding. -/
theorem payable_suppressed (inOrder : InOrder markers findings)
    : Payable markers (findings.filter Finding.suppressed) := by
  induction findings using List.reverseRecOn with
  | nil => exact .nil
  | append_singleton findings finding ih =>
      have rest := ih inOrder.of_append
      cases suppressed : finding.suppressed with
      | false => simpa only [List.filter_append, List.filter_cons, suppressed,
          Bool.false_eq_true, if_false, List.filter_nil, List.append_nil] using rest
      | true =>
          rw [List.filter_append, List.filter_cons, if_pos suppressed, List.filter_nil]
          refine rest.concat ?_
          rw [← List.countP_eq_length_filter]
          exact inOrder.suppressed_last_iff.mp suppressed

/-- No other findings that can be paid for are more. Witness: by induction from the last finding,
which either is suppressed itself or comes when the budget of its line, and so of all lines before
it, is spent. -/
theorem length_le_of_payable (inOrder : InOrder markers findings)
    (sorted : findings.Pairwise (fun a b => a.line ≤ b.line)) {paid : List Finding}
    (among : paid.Sublist findings) (payable : Payable markers paid)
    : paid.length ≤ findings.countP Finding.suppressed := by
  induction findings using List.reverseRecOn generalizing paid with
  | nil => exact among.length_le
  | append_singleton findings finding ih =>
      obtain ⟨sortedRest, -, last⟩ := List.pairwise_append.mp sorted
      rw [List.countP_append, List.countP_singleton]
      cases suppressed : finding.suppressed with
      | true =>
          obtain ⟨early, late, rfl, earlyAmong, lateAmong⟩ := List.sublist_append_iff.mp among
          have rest := ih inOrder.of_append sortedRest earlyAmong payable.of_append
          have one : late.length ≤ 1 := lateAmong.length_le
          rw [List.length_append, if_pos rfl]
          exact Nat.add_le_add rest one
      | false =>
          have spent : announced markers finding.line ≤ findings.countP Finding.suppressed :=
            Nat.le_of_not_lt (inOrder.suppressed_last_iff.not.mp (by simp [suppressed]))
          have early : ∀ other ∈ paid, other.line ≤ finding.line := by
            intro other member
            rcases List.mem_append.mp (among.subset member) with listed | listed
            · exact last other listed finding List.mem_cons_self
            · rw [List.mem_singleton.mp listed]
          exact (payable.length_le_announced early).trans (spent.trans (Nat.le_add_right _ _))

end InOrder

/-- Findings that are ready to spend a budget: unsuppressed, and with the lines of their places. -/
def Ready (found : List (Nat × Finding)) : Prop :=
  ∀ entry ∈ found, entry.2.line = entry.1 ∧ entry.2.suppressed = false

theorem Ready.of_cons {entry : Nat × Finding} {rest : List (Nat × Finding)}
    (ready : Ready (entry :: rest))
    : Ready rest :=
  fun other member => ready other (List.mem_cons_of_mem _ member)

/-- Spending does not move findings. -/
theorem map_line_spend {markers : List Suppression} {used : Nat} {found : List (Nat × Finding)}
    (ready : Ready found)
    : (spend markers used found).map Finding.line = found.map Prod.fst := by
  induction found generalizing used with
  | nil => rfl
  | cons head rest ih =>
      obtain ⟨line, finding⟩ := head
      have own : finding.line = line := (ready _ List.mem_cons_self).1
      rw [spend, List.map_cons]
      split
      · rw [List.map_cons, ih ready.of_cons]
        exact congrArg (· :: _) own
      · rw [List.map_cons, ih ready.of_cons, own]

/-- One finding takes a unit or leaves the rest as it finds it, so the units that are used are the
findings suppressed so far, by induction. -/
theorem suppressed_spend_iff {markers : List Suppression} {used : Nat}
    {found : List (Nat × Finding)} (ready : Ready found) {before after : List Finding}
    {finding : Finding} (walked : spend markers used found = before ++ finding :: after)
    : finding.suppressed = true
      ↔ used + before.countP Finding.suppressed < (budget markers finding.line).toNat := by
  induction found generalizing used before with
  | nil => exact absurd walked.symm (List.append_ne_nil_of_right_ne_nil _ (List.cons_ne_nil _ _))
  | cons head rest ih =>
      obtain ⟨line, own⟩ := head
      obtain ⟨sameLine, unsuppressed⟩ := ready _ List.mem_cons_self
      have sameLine : own.line = line := sameLine
      have unsuppressed : own.suppressed = false := unsuppressed
      rw [spend] at walked
      split at walked
      case isTrue left =>
        cases before with
        | nil =>
            obtain ⟨rfl, -⟩ := List.cons.inj walked
            exact iff_of_true rfl (sameLine ▸ left)
        | cons first more =>
            obtain ⟨rfl, onward⟩ := List.cons.inj walked
            rw [ih ready.of_cons onward, List.countP_cons_of_pos rfl, Nat.add_right_comm,
              Nat.add_assoc]
      case isFalse spent =>
        cases before with
        | nil =>
            obtain ⟨rfl, -⟩ := List.cons.inj walked
            refine iff_of_false (by simp [unsuppressed]) ?_
            rw [sameLine]
            exact spent
        | cons first more =>
            obtain ⟨rfl, onward⟩ := List.cons.inj walked
            rw [ih ready.of_cons onward, List.countP_cons_of_neg (by simp [unsuppressed])]

/-- The counts before the line of each finding add up to a number of 64 bits. -/
def Fits (markers : List Suppression) (findings : List Finding) : Prop :=
  ∀ finding ∈ findings,
    ((markers.filter (fun marker => marker.line < finding.line)).map Suppression.count).sum
      < UInt64.size

theorem inOrder_spend {markers : List Suppression} {found : List (Nat × Finding)}
    (ready : Ready found) (fits : Fits markers (spend markers 0 found))
    : InOrder markers (spend markers 0 found) := by
  intro before finding after walked
  have listed : finding ∈ spend markers 0 found := walked ▸ by simp
  rw [suppressed_spend_iff ready walked, Nat.zero_add, toNat_budget (fits finding listed)]
  rfl

-----------------------------------------------------------------------------------------
-- The findings of a file
-----------------------------------------------------------------------------------------

/-- A finding says of a broken reference which node it leaves, where it stands and what it lacks. -/
structure Tells (graph : Graph) (reference : WrittenReference) (finding : Finding) : Prop where
  node : finding.nodeId = some reference.source
  said : ∃ source letters,
    graph.node? reference.source = some source
    ∧ (reference, letters) ∈ graph.brokenReferences
    ∧ finding.location = some (Location.ofLine source.source.path reference.line)
    ∧ finding.message = source.label ++ " " ++ reason reference letters

theorem tells_of_mem_ofFile {graph : Graph} {path : String} {entry : WrittenReference × Finding}
    (member : entry ∈ ofFile graph path)
    : Tells graph entry.1 entry.2 ∧ entry.2.isIn path = true := by
  obtain ⟨letters, line, finding, mark, broken, read, same⟩ := exists_of_mem_ofFile member
  obtain ⟨node, present, made⟩ := Option.map_eq_some_iff.mp read
  cases made
  rw [same]
  refine ⟨⟨?_, node, letters, present, broken, rfl, rfl⟩, ?_⟩
  · exact congrArg some (graph.keyed _ node present)
  · simp [Finding.isIn, Location.ofLine]

/-- Of items that occur once each, only one contributes. -/
theorem flatMap_ite_of_nodup {α β : Type} [DecidableEq α] {items : List α} (nodup : items.Nodup)
    {item : α} {own : List β} (absent : item ∉ items → own = [])
    : items.flatMap (fun other => if other = item then own else []) = own := by
  induction items with
  | nil => exact (absent List.not_mem_nil).symm
  | cons first rest ih =>
      obtain ⟨fresh, nodupRest⟩ := List.nodup_cons.mp nodup
      rw [List.flatMap_cons]
      by_cases same : first = item
      · have nothing : rest.flatMap (fun other => if other = item then own else []) = [] :=
          List.flatMap_eq_nil_iff.mpr fun other member =>
            if_neg fun here : other = item => fresh (same.trans here.symm ▸ member)
        rw [if_pos same, nothing, List.append_nil]
      · rw [if_neg same, List.nil_append, ih nodupRest]
        exact fun missing => absent fun member =>
          (List.mem_cons.mp member).elim (fun here => same here.symm) missing

/-- The findings with a place in a file are those of the file. Witness: each path is gone through
once. -/
theorem filter_check (context : RuleContext) (path : String)
    : (check context).filter (Finding.isIn path) = (ofFile context.graph path).map Prod.snd := by
  have own (other : String)
      : ((ofFile context.graph other).map Prod.snd).filter (Finding.isIn path)
        = if other = path then (ofFile context.graph path).map Prod.snd else [] := by
    have placed : ∀ finding ∈ (ofFile context.graph other).map Prod.snd,
        finding.isIn other = true := by
      intro finding member
      obtain ⟨entry, listed, rfl⟩ := List.mem_map.mp member
      exact (tells_of_mem_ofFile listed).2
    split
    · next same =>
        subst same
        exact List.filter_eq_self.mpr placed
    · next different =>
        exact List.filter_eq_nil_iff.mpr fun finding member here =>
          different (Finding.path_unique (placed finding member) here)
  rw [check_eq, marked, List.map_flatMap, List.filter_flatMap]
  simp only [own]
  refine flatMap_ite_of_nodup (paths_nodup _) (fun absent => ?_)
  refine List.map_eq_nil_iff.mpr (List.eq_nil_iff_forall_not_mem.mpr fun entry member => absent ?_)
  obtain ⟨place, listed⟩ := mem_ofFile_iff.mp (List.mem_map_of_mem (f := Prod.fst) member)
  exact mem_paths_of_mem_found listed

/-- The findings of a file in the order of lines, before its budget is spent. -/
def unspent (graph : Graph) (path : String) : List (Nat × Finding) :=
  let own := ((found graph).filter (fun entry => entry.2.1 == path)).map
    (fun entry => (entry.1, entry.2.2))
  (own.mergeSort (fun a b => a.2.1 ≤ b.2.1)).map Prod.snd

theorem map_snd_ofFile (graph : Graph) (path : String)
    : (ofFile graph path).map Prod.snd
      = spend (graph.markersOf path) 0 (unspent graph path) :=
  map_snd_spendMarked _ _ _

theorem ready_unspent (graph : Graph) (path : String) : Ready (unspent graph path) := by
  intro entry member
  obtain ⟨_, sorted, rfl⟩ := List.mem_map.mp member
  obtain ⟨⟨reference, _, line, finding⟩, filtered, rfl⟩ :=
    List.mem_map.mp (List.mem_mergeSort.mp sorted)
  obtain ⟨⟨written, letters⟩, -, read⟩ := List.mem_filterMap.mp (List.mem_filter.mp filtered).1
  obtain ⟨_, read, taken⟩ := Option.map_eq_some_iff.mp read
  cases taken
  obtain ⟨node, -, made⟩ := Option.map_eq_some_iff.mp read
  cases made
  exact ⟨rfl, rfl⟩

theorem pairwise_unspent (graph : Graph) (path : String)
    : (unspent graph path).Pairwise (fun a b => a.1 ≤ b.1) := by
  rw [unspent, List.pairwise_map]
  refine (List.pairwise_mergeSort ?_ ?_ _).imp of_decide_eq_true
  · intro a b c first second
    exact decide_eq_true ((of_decide_eq_true first).trans (of_decide_eq_true second))
  · intro a b
    simpa using Nat.le_total a.2.1 b.2.1

-----------------------------------------------------------------------------------------
-- The budget of a file
-----------------------------------------------------------------------------------------

/-- The findings of a file and the markers that pay for those suppressed. No findings that the
markers could pay for are more. -/
structure Spent (markers : List Suppression) (findings : List Finding) : Prop where
  sorted : findings.Pairwise (fun a b => a.line ≤ b.line)
  inOrder : InOrder markers findings
  late :
    ∀ finding ∈ findings,
      finding.suppressed = true → ∃ marker ∈ markers, marker.line < finding.line
  paid : Payable markers (findings.filter Finding.suppressed)
  most :
    ∀ paid : List Finding,
      paid.Sublist findings
      → Payable markers paid
      → paid.length ≤ findings.countP Finding.suppressed

theorem spent_spend (markers : List Suppression) {found : List (Nat × Finding)}
    (ready : Ready found) (ordered : found.Pairwise (fun a b => a.1 ≤ b.1))
    (fits : Fits markers (spend markers 0 found))
    : Spent markers (spend markers 0 found) := by
  have inOrder : InOrder markers (spend markers 0 found) := inOrder_spend ready fits
  have sorted : (spend markers 0 found).Pairwise (fun a b => a.line ≤ b.line) := by
    rw [← List.pairwise_map (f := Finding.line) (R := (· ≤ ·)), map_line_spend ready,
      List.pairwise_map]
    exact ordered
  exact {
    sorted
    inOrder
    late := fun finding member => inOrder.exists_marker_of_suppressed member
    paid := inOrder.payable_suppressed
    most := fun paid among payable => inOrder.length_le_of_payable sorted among payable }

/-- Each broken reference whose source is present has one finding. The findings of a file depend on
no markers but its own. They spend the units of these in the order of lines, as many as can be
spent, if the counts can be added up. -/
theorem check_spends_markers (context : RuleContext)
    : (∃ references : List WrittenReference,
        references.Nodup
        ∧ (∀ reference,
            reference ∈ references
            ↔ context.graph.contains reference.source = true
              ∧ ∃ edge ∈ context.graph.edges,
                  context.graph.isBroken edge = true
                  ∧ WrittenReference.ofEdge edge = reference)
        ∧ List.Forall₂ (Tells context.graph) references (check context))
      ∧ ∀ path,
          (Fits (context.graph.markersOf path) ((check context).filter (Finding.isIn path))
            → Spent (context.graph.markersOf path) ((check context).filter (Finding.isIn path)))
          ∧ ∀ files,
              ({ context.graph with files } : Graph).markersOf path
                = context.graph.markersOf path
              → (check { context with graph := { context.graph with files } }).filter
                  (Finding.isIn path)
                = (check context).filter (Finding.isIn path) := by
  refine ⟨⟨(marked context.graph).map Prod.fst, marked_nodup _,
    fun reference => mem_map_fst_marked_iff, ?_⟩, fun path => ?_⟩
  · rw [check_eq, List.forall₂_map_left_iff, List.forall₂_map_right_iff, List.forall₂_same]
    intro entry member
    obtain ⟨path, -, inFile⟩ := List.mem_flatMap.mp member
    exact (tells_of_mem_ofFile inFile).1
  · rw [filter_check, map_snd_ofFile]
    refine ⟨spent_spend _ (ready_unspent _ _) (pairwise_unspent _ _), fun files same => ?_⟩
    rw [filter_check, map_snd_ofFile, same]
    rfl

/-- Code that announces one broken reference and then holds two. -/
def announcedOnce : SourceSet where
  files := [
    ⟨"login.py", "# elspais: expected-broken-links 1 # Implements:\n# REQ-p09998\n# REQ-p09999\n"⟩]

theorem check_spends_markers_announcedOnce
    : let context : RuleContext :=
        ⟨Graph.ofSources Config.defaultScheme announcedOnce, Config.defaultScheme, ⟨[], []⟩⟩
      let markers := context.graph.markersOf "login.py"
      let findings := (check context).filter (Finding.isIn "login.py")
      markers = [⟨1, 1⟩]
      ∧ findings.map (fun finding => (finding.line, finding.suppressed)) = [(2, true), (3, false)]
      ∧ Fits markers findings
      ∧ Spent markers findings := by
  intro context markers findings
  have announces : markers = [⟨1, 1⟩] := by decide +kernel
  have broken
      : context.graph.brokenReferences
        = [(⟨"code:login.py:1", 2, .implements, "REQ-p09998"⟩, []),
            (⟨"code:login.py:1", 3, .implements, "REQ-p09999"⟩, [])] := by
    simp only [Graph.brokenReferences]
    rw [List.mergeSort_of_pairwise (by decide +kernel)]
    decide +kernel
  have walked
      : findings.map (fun finding => (finding.line, finding.suppressed))
        = [(2, true), (3, false)] := by
    simp only [findings]
    rw [filter_check, map_snd_ofFile]
    simp only [unspent, found, broken]
    rw [List.mergeSort_of_pairwise (by decide +kernel)]
    decide +kernel
  have fits : Fits markers findings := by
    intro finding _
    rw [announces, List.filter_cons, List.filter_nil]
    split <;> decide
  exact ⟨announces, walked, fits, ((check_spends_markers context).2 "login.py").1 fits⟩

end BrokenReference

end Traceability
