import Mathlib.Data.List.Induction
import Traceability.Proofs.Disk.Texts
import Traceability.Proofs.Distinct
import Traceability.Repair.Files

/-! Files are fixed one by one.
What is left of a file, and what is reported about it, depends on its text and on the changes that
name its path, and on nothing else. A file that cannot be read, or in which some marker cannot be
found, is left as it is.
-/

namespace Traceability

-----------------------------------------------------------------------------------------
-- Reports by path
-----------------------------------------------------------------------------------------

/-- The path that a failure is about. -/
def FixFailure.path : FixFailure → String
  | .anchor error => error.path
  | .file path _ => path

namespace FixReport

instance : Append FixReport where
  append report further := {
    updated := report.updated ++ further.updated
    filesWritten := report.filesWritten ++ further.filesWritten
    failures := report.failures ++ further.failures }

/-- The part of a report that is about a path. -/
def about (report : FixReport) (path : String) : FixReport where
  updated := report.updated.filter (fun update => update.path = path)
  filesWritten := report.filesWritten.filter (· = path)
  failures := report.failures.filter (fun failure => failure.path = path)

/-- A report about nothing but a path. -/
structure Concerns (report : FixReport) (path : String) : Prop where
  updated : ∀ update ∈ report.updated, update.path = path
  filesWritten : ∀ written ∈ report.filesWritten, written = path
  failures : ∀ failure ∈ report.failures, failure.path = path

theorem append_def (report further : FixReport)
    : report ++ further
      = { updated := report.updated ++ further.updated
          filesWritten := report.filesWritten ++ further.filesWritten
          failures := report.failures ++ further.failures } :=
  rfl

theorem append_empty (report : FixReport) : report ++ ({} : FixReport) = report := by
  simp [append_def]

theorem empty_append (report : FixReport) : ({} : FixReport) ++ report = report :=
  rfl

theorem about_append (report further : FixReport) (path : String)
    : (report ++ further).about path = report.about path ++ further.about path := by
  simp [append_def, about]

theorem Concerns.about_self {report : FixReport} {path : String} (concerns : report.Concerns path)
    : report.about path = report := by
  show FixReport.mk _ _ _ = report
  rw [List.filter_eq_self.mpr (by simpa using concerns.updated),
    List.filter_eq_self.mpr (by simpa using concerns.filesWritten),
    List.filter_eq_self.mpr (by simpa using concerns.failures)]

theorem Concerns.about_other {report : FixReport} {path other : String}
    (concerns : report.Concerns path) (distinct : path ≠ other)
    : report.about other = {} := by
  have updated : report.updated.filter (fun update => update.path = other) = [] :=
    List.filter_eq_nil_iff.mpr fun update member => by
      simpa [concerns.updated update member] using distinct
  have filesWritten : report.filesWritten.filter (· = other) = [] :=
    List.filter_eq_nil_iff.mpr fun written member => by
      simpa [concerns.filesWritten written member] using distinct
  have failures : report.failures.filter (fun failure => failure.path = other) = [] :=
    List.filter_eq_nil_iff.mpr fun failure member => by
      simpa [concerns.failures failure member] using distinct
  rw [about, updated, filesWritten, failures]

end FixReport

/-- What one file adds to the report. -/
def FileOutcome.report : FileOutcome → FixReport
  | .written path updates => { updated := updates, filesWritten := [path] }
  | .unchanged _ => {}
  | .failed failure => { failures := [failure] }

namespace FixReport

theorem ofOutcomes_concat (outcomes : List FileOutcome) (outcome : FileOutcome)
    : ofOutcomes (outcomes ++ [outcome]) = ofOutcomes outcomes ++ outcome.report := by
  rw [ofOutcomes, List.foldl_concat]
  cases outcome <;> simp [ofOutcomes, FileOutcome.report, append_def]

/-- A path is reported about once, if it is fixed at all. Witness: induction from the last path
backwards, as the report grows at its end. -/
theorem about_ofOutcomes {outcome : String → FileOutcome}
    (concerns : ∀ path, (outcome path).report.Concerns path) {paths : List String}
    (nodup : paths.Nodup) (path : String)
    : (ofOutcomes (paths.map outcome)).about path
      = if path ∈ paths then (outcome path).report else {} := by
  induction paths using List.reverseRecOn with
  | nil => rfl
  | append_singleton paths last ih =>
      obtain ⟨before, -, disjoint⟩ := List.nodup_append'.mp nodup
      rw [List.map_append, List.map_singleton, ofOutcomes_concat, about_append, ih before]
      by_cases own : last = path
      · subst own
        have fresh : last ∉ paths := fun member => disjoint member (List.mem_singleton_self last)
        rw [if_neg fresh, (concerns last).about_self, empty_append, if_pos (by simp)]
      · rw [(concerns last).about_other own, append_empty]
        have same : path ∈ paths ++ [last] ↔ path ∈ paths := by simp [Ne.symm own]
        simp only [same]

end FixReport

-----------------------------------------------------------------------------------------
-- One file
-----------------------------------------------------------------------------------------

namespace Rewrite

theorem path_of_applyAll {path : String} {pieces : List (List Char)} {updates : List HashUpdate}
    {error : AnchorNotFound} (failed : applyAll path pieces updates = .error error)
    : error.path = path := by
  induction updates generalizing pieces with
  | nil => cases failed
  | cons update rest ih =>
      rw [applyAll] at failed
      split at failed
      · exact ih failed
      · cases failed
        rfl

/-- A marker that cannot be found is reported for the file that is rewritten. -/
theorem path_of_rewrite {path text : String} {updates : List HashUpdate} {error : AnchorNotFound}
    (failed : rewrite path text updates = .error error)
    : error.path = path := by
  rw [rewrite] at failed
  split at failed
  · cases failed
  · next missing =>
      cases failed
      exact path_of_applyAll missing

end Rewrite

namespace FileOutcome

variable {path : String} {updates : List HashUpdate} {read : Except ReadFailure String}

/-- What comes of a file of which this was read, if every text can be written. -/
def ofRead (path : String) (updates : List HashUpdate) (read : Except ReadFailure String)
    : FileOutcome :=
  match plan path updates read with
  | .error failure => .failed failure
  | .ok none => .unchanged path
  | .ok (some _) => .written path updates

/-- What reading the file gives afterwards. -/
def afterwards (path : String) (updates : List HashUpdate) (read : Except ReadFailure String)
    : Except ReadFailure String :=
  match plan path updates read with
  | .ok (some text) => .ok text
  | _ => read

theorem path_of_plan {failure : FixFailure} (failed : plan path updates read = .error failure)
    : failure.path = path := by
  unfold plan at failed
  split at failed
  · cases failed
    rfl
  · split at failed
    · next missing =>
        cases failed
        exact Rewrite.path_of_rewrite missing
    · cases failed

theorem concerns_ofRead (own : ∀ update ∈ updates, update.path = path)
    : (ofRead path updates read).report.Concerns path := by
  rw [ofRead]
  split
  · next failed =>
      exact ⟨List.forall_mem_nil _, List.forall_mem_nil _, fun _ member =>
        List.mem_singleton.mp member ▸ path_of_plan failed⟩
  · exact ⟨List.forall_mem_nil _, List.forall_mem_nil _, List.forall_mem_nil _⟩
  · exact ⟨own, fun _ => List.mem_singleton.mp, List.forall_mem_nil _⟩

/-- Only what was read is written. -/
theorem exists_of_plan {text : String} (planned : plan path updates read = .ok (some text))
    : ∃ old, read = .ok old := by
  cases read with
  | error failure => cases planned
  | ok old => exact ⟨old, rfl⟩

end FileOutcome

section Run

variable {σ : Type} {fs : FileSystem (StateM σ)} {view : FileView σ} {path : String}
  {updates : List HashUpdate}

/-- Fixing a file replaces what is under its path, perhaps by the same. -/
theorem fixFile_run (keeps : fs.Keeps view) (path : String) (updates : List HashUpdate) (state : σ)
    : ∃ next,
        (fixFile fs path updates).run state
          = pure (FileOutcome.ofRead path updates (view.text state path), next)
        ∧ view.Replaces state next [path]
            (fun path => FileOutcome.afterwards path updates (view.text state path)) := by
  have unchanged {result : String → Except ReadFailure String}
      (same : result path = view.text state path)
      : view.Replaces state state [path] result :=
    ⟨fun other member => List.mem_singleton.mp member ▸ same.symm, fun _ _ => rfl, rfl⟩
  cases planned : FileOutcome.plan path updates (view.text state path) with
  | error failure =>
      refine ⟨state, ?_, unchanged (by rw [FileOutcome.afterwards, planned])⟩
      simp only [fixFile, FileOutcome.ofRead, StateT.run_bind, keeps.reads, pure_bind, planned,
        StateT.run_pure]
  | ok rewritten =>
      cases rewritten with
      | none =>
          refine ⟨state, ?_, unchanged (by rw [FileOutcome.afterwards, planned])⟩
          simp only [fixFile, FileOutcome.ofRead, StateT.run_bind, keeps.reads, pure_bind, planned,
            StateT.run_pure]
      | some text =>
          obtain ⟨old, held⟩ := FileOutcome.exists_of_plan planned
          obtain ⟨next, written, replaces⟩ := keeps.writes state path old text held
          refine ⟨next, ?_, ?_, replaces.others, replaces.aliases⟩
          · simp only [fixFile, FileOutcome.ofRead, StateT.run_bind, keeps.reads, pure_bind,
              planned, written, StateT.run_pure]
          · intro other member
            rw [replaces.own other member, List.mem_singleton.mp member, FileOutcome.afterwards,
              planned]

/-- Files that different paths name are fixed one after the other, each as it was at the start. -/
theorem mapM_fixFile_run (keeps : fs.Keeps view) (own : String → List HashUpdate)
    {paths : List String} (nodup : paths.Nodup) (state : σ)
    (apart : ∀ a ∈ paths, ∀ b ∈ paths, a ≠ b → ¬ view.aliases state a b)
    : ∃ next,
        (paths.mapM (fun path => fixFile fs path (own path))).run state
          = pure (paths.map (fun path =>
              FileOutcome.ofRead path (own path) (view.text state path)), next)
        ∧ view.Replaces state next paths
            (fun path => FileOutcome.afterwards path (own path) (view.text state path)) := by
  induction paths generalizing state with
  | nil => exact ⟨state, rfl, List.forall_mem_nil _, fun _ _ => rfl, rfl⟩
  | cons first rest ih =>
      obtain ⟨fresh, distinct⟩ := List.nodup_cons.mp nodup
      obtain ⟨mid, ran, replaced⟩ := fixFile_run keeps first (own first) state
      have differs {path : String} (later : path ∈ rest) : first ≠ path := by
        rintro rfl
        exact fresh later
      -- Fixing the first file leaves the others as they were.
      have kept {path : String} (later : path ∈ rest) : view.text mid path = view.text state path :=
        replaced.others path fun other member => by
          rw [List.mem_singleton.mp member]
          exact apart first List.mem_cons_self path (List.mem_cons_of_mem first later)
            (differs later)
      obtain ⟨next, further, replaces⟩ := ih distinct mid fun a one b two => by
        rw [replaced.aliases]
        exact apart a (List.mem_cons_of_mem first one) b (List.mem_cons_of_mem first two)
      refine ⟨next, ?_, ?_, ?_, ?_⟩
      · have outcomes
            : rest.map (fun path => FileOutcome.ofRead path (own path) (view.text mid path))
              = rest.map (fun path => FileOutcome.ofRead path (own path) (view.text state path)) :=
          List.map_congr_left fun path later => by rw [kept later]
        simp only [List.mapM_cons, StateT.run_bind, ran, pure_bind, further, StateT.run_pure,
          outcomes, List.map_cons]
      · intro path member
        rcases List.mem_cons.mp member with rfl | later
        · rw [← replaced.own path List.mem_cons_self]
          refine replaces.others path fun other later => ?_
          rw [replaced.aliases]
          exact apart other (List.mem_cons_of_mem path later) path List.mem_cons_self
            (differs later).symm
        · rw [replaces.own path later, kept later]
      · intro other none
        rw [replaces.others other, replaced.others other]
        · exact fun path member =>
            List.mem_singleton.mp member ▸ none first List.mem_cons_self
        · intro path later
          rw [replaced.aliases]
          exact none path (List.mem_cons_of_mem first later)
      · rw [replaces.aliases, replaced.aliases]

end Run

-----------------------------------------------------------------------------------------
-- All files
-----------------------------------------------------------------------------------------

namespace HashUpdate

theorem nodup_paths (updates : List HashUpdate) : (paths updates).Nodup :=
  nodup_eraseDups _

theorem mem_paths {updates : List HashUpdate} {path : String}
    : path ∈ paths updates ↔ path ∈ updates.map HashUpdate.path := by
  rw [paths, List.mem_eraseDups, List.mem_mergeSort]

/-- No two paths that changes name are names of one file. -/
def NamesApart {σ : Type} (view : FileView σ) (state : σ) (updates : List HashUpdate) : Prop :=
  ∀ a ∈ updates.map HashUpdate.path, ∀ b ∈ updates.map HashUpdate.path,
    a ≠ b → ¬ view.aliases state a b

end HashUpdate

/-- What is left of a file, and reported about it, after it was fixed with changes. The file is as
it was, and one failure is reported, if there is no text under its path or some marker is not
found. Otherwise it has the rewritten text, and it and its changes are reported unless that is the
text it had. -/
structure Fixed (path : String) (updates : List HashUpdate)
    (before after : Except ReadFailure String) (report : FixReport) : Prop where
  unread
    : ∀ failure, before = .error failure →
        after = before ∧ report = { failures := [.file path failure] }
  unanchored
    : ∀ text error, before = .ok text → Rewrite.rewrite path text updates = .error error →
        after = before ∧ report = { failures := [.anchor error] }
  rewritten
    : ∀ text result, before = .ok text → Rewrite.rewrite path text updates = .ok result →
        after = .ok result
        ∧ report = if result = text then {} else { updated := updates, filesWritten := [path] }

theorem fixed_ofRead (path : String) (updates : List HashUpdate) (read : Except ReadFailure String)
    : Fixed path updates read (FileOutcome.afterwards path updates read)
        (FileOutcome.ofRead path updates read).report where
  unread failure failed := by
    subst failed
    exact ⟨rfl, rfl⟩
  unanchored text error held failed := by
    subst held
    have planned : FileOutcome.plan path updates (.ok text) = .error (.anchor error) := by
      simp only [FileOutcome.plan, failed]
    rw [FileOutcome.afterwards, FileOutcome.ofRead, planned]
    exact ⟨rfl, rfl⟩
  rewritten text result held done := by
    subst held
    have planned : FileOutcome.plan path updates (.ok text)
        = .ok (if result = text then none else some result) := by
      simp only [FileOutcome.plan, done]
    rw [FileOutcome.afterwards, FileOutcome.ofRead, planned]
    by_cases same : result = text
    · rw [if_pos same, if_pos same, same]
      exact ⟨rfl, rfl⟩
    · rw [if_neg same, if_neg same]
      exact ⟨rfl, rfl⟩

/-- A file is fixed in one way only. -/
theorem Fixed.unique {path : String} {updates : List HashUpdate}
    {before after other : Except ReadFailure String} {report again : FixReport}
    (first : Fixed path updates before after report)
    (second : Fixed path updates before other again)
    : after = other ∧ report = again := by
  cases read : before with
  | error failure =>
      obtain ⟨kept, reported⟩ := first.unread failure read
      obtain ⟨kept', reported'⟩ := second.unread failure read
      exact ⟨kept.trans kept'.symm, reported.trans reported'.symm⟩
  | ok text =>
      cases done : Rewrite.rewrite path text updates with
      | error error =>
          obtain ⟨kept, reported⟩ := first.unanchored text error read done
          obtain ⟨kept', reported'⟩ := second.unanchored text error read done
          exact ⟨kept.trans kept'.symm, reported.trans reported'.symm⟩
      | ok result =>
          obtain ⟨written, reported⟩ := first.rewritten text result read done
          obtain ⟨written', reported'⟩ := second.rewritten text result read done
          exact ⟨written.trans written'.symm, reported.trans reported'.symm⟩

/-- Every file that changes name is fixed with those that name it, and no other file is touched or
reported about. -/
structure FixedEach {σ : Type} (view : FileView σ) (updates : List HashUpdate) (state next : σ)
    (report : FixReport) : Prop where
  named
    : ∀ path ∈ updates.map HashUpdate.path,
        Fixed path (updates.filter (fun update => update.path = path)) (view.text state path)
          (view.text next path) (report.about path)
  untouched
    : ∀ path, (∀ name ∈ updates.map HashUpdate.path, ¬ view.aliases state name path) →
        view.text next path = view.text state path
  unreported : ∀ path, path ∉ updates.map HashUpdate.path → report.about path = {}

theorem fixFiles_run {σ : Type} {fs : FileSystem (StateM σ)} {view : FileView σ}
    (keeps : fs.Keeps view) {updates : List HashUpdate} {state : σ}
    (apart : HashUpdate.NamesApart view state updates)
    : ∃ report next,
        (fixFiles fs updates).run state = pure (report, next)
        ∧ FixedEach view updates state next report := by
  let own (path : String) := updates.filter (fun update => update.path = path)
  let outcome (path : String) := FileOutcome.ofRead path (own path) (view.text state path)
  obtain ⟨next, ran, replaces⟩ := mapM_fixFile_run keeps own (HashUpdate.nodup_paths updates)
    state fun a one b two => apart a (HashUpdate.mem_paths.mp one) b (HashUpdate.mem_paths.mp two)
  have concerns (path : String) : (outcome path).report.Concerns path :=
    FileOutcome.concerns_ofRead fun update member => by
      simpa using (List.mem_filter.mp member).2
  have about := FixReport.about_ofOutcomes concerns (HashUpdate.nodup_paths updates)
  refine ⟨FixReport.ofOutcomes ((HashUpdate.paths updates).map outcome), next, ?_, ?_, ?_, ?_⟩
  · rw [fixFiles, StateT.run_bind, ran, pure_bind, StateT.run_pure]
  · intro path member
    have listed := HashUpdate.mem_paths.mpr member
    rw [about, if_pos listed, replaces.own path listed]
    exact fixed_ofRead path (own path) (view.text state path)
  · exact fun path none => replaces.others path fun name listed =>
      none name (HashUpdate.mem_paths.mp listed)
  · intro path unnamed
    rw [about, if_neg (fun listed => unnamed (HashUpdate.mem_paths.mp listed))]

/-- Files are fixed all or nothing, and apart from each other: what becomes of a file is the same
whatever changes name other paths. -/
theorem fixFiles_isolates {σ : Type} {fs : FileSystem (StateM σ)} {view : FileView σ}
    (keeps : fs.Keeps view) {updates : List HashUpdate} {state : σ}
    (apart : HashUpdate.NamesApart view state updates)
    : ∃ report next,
        (fixFiles fs updates).run state = pure (report, next)
        ∧ FixedEach view updates state next report
        ∧ ∀ others, HashUpdate.NamesApart view state others →
            ∃ report' next',
              (fixFiles fs others).run state = pure (report', next')
              ∧ ∀ path ∈ updates.map HashUpdate.path,
                  others.filter (fun update => update.path = path)
                    = updates.filter (fun update => update.path = path) →
                  view.text next' path = view.text next path
                  ∧ report'.about path = report.about path := by
  obtain ⟨report, next, ran, fixed⟩ := fixFiles_run keeps apart
  refine ⟨report, next, ran, fixed, fun others apart' => ?_⟩
  obtain ⟨report', next', ran', fixed'⟩ := fixFiles_run keeps apart'
  refine ⟨report', next', ran', fun path member same => ?_⟩
  have named : path ∈ others.map HashUpdate.path := by
    obtain ⟨update, listed, names⟩ := List.mem_map.mp member
    have inOthers : update ∈ others.filter (fun update => update.path = path) := by
      rw [same]
      exact List.mem_filter.mpr ⟨listed, by simpa using names⟩
    exact List.mem_map.mpr ⟨update, (List.mem_filter.mp inOthers).1, names⟩
  exact (same ▸ fixed'.named path named).unique (fixed.named path member)

/-- A disk with two files that changes name and one that they do not. -/
def threeFiles : Disk :=
  ⟨Std.ExtTreeMap.ofList [
    (["a.md"], Entry.text "*End* *First*\n*End* *Second*\n"),
    (["b.md"], Entry.text "*End* *Third*\n"),
    (["d.md"], Entry.text "*End* *Third*\n")]⟩

/-- Changes in turn of a file, of one that is not there, of another, and of a marker that the first
file does not have. -/
def mixedUpdates : List HashUpdate := [
  ⟨"a.md", "REQ-p00001", 1, "*End* *First*", none, "01234567"⟩,
  ⟨"c.md", "REQ-p00002", 1, "*End* *Third*", none, "01234567"⟩,
  ⟨"b.md", "REQ-p00003", 1, "*End* *Third*", none, "89abcdef"⟩,
  ⟨"a.md", "REQ-p00004", 2, "*End* *Fifth*", none, "89abcdef"⟩]

/-- Only the file whose markers are all found is written. -/
theorem fixFiles_isolates_threeFiles
    : Disk.fileSystem.Keeps Disk.view
      ∧ HashUpdate.NamesApart Disk.view threeFiles mixedUpdates
      ∧ ∃ report next,
          (fixFiles Disk.fileSystem mixedUpdates).run threeFiles = pure (report, next)
          ∧ next.readText "a.md" = threeFiles.readText "a.md"
          ∧ report.about "a.md" = { failures := [.anchor ⟨"a.md", "REQ-p00004", 2⟩] }
          ∧ next.readText "b.md" = .ok "*End* *Third* | **Hash**: 89abcdef\n"
          ∧ (report.about "b.md").filesWritten = ["b.md"]
          ∧ report.about "c.md" = { failures := [.file "c.md" .notFound] } := by
  have apart : HashUpdate.NamesApart Disk.view threeFiles mixedUpdates := by
    intro a one b two distinct ⟨place, leads, leads'⟩
    have places : ∀ a ∈ mixedUpdates.map HashUpdate.path, ∀ b ∈ mixedUpdates.map HashUpdate.path,
        a ≠ b → threeFiles.place a ≠ threeFiles.place b := by
      decide +kernel
    exact places a one b two distinct (leads.trans leads'.symm)
  obtain ⟨report, next, ran, fixed, -⟩ := fixFiles_isolates Disk.fileSystem_keeps apart
  have first := (fixed.named "a.md" (by decide)).unanchored "*End* *First*\n*End* *Second*\n"
    ⟨"a.md", "REQ-p00004", 2⟩ (by decide +kernel) (by decide +kernel)
  have second := (fixed.named "b.md" (by decide)).rewritten "*End* *Third*\n"
    "*End* *Third* | **Hash**: 89abcdef\n" (by decide +kernel) (by decide +kernel)
  have third := (fixed.named "c.md" (by decide)).unread .notFound (by decide +kernel)
  exact ⟨Disk.fileSystem_keeps, apart, report, next, ran, first.1, first.2, second.1,
    by rw [second.2]; rfl, third.2⟩

end Traceability
