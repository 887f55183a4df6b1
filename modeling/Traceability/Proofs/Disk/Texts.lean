import Traceability.Disk.Memory

/-! Texts under paths.
Whatever a file system is made of, fixing files sees of it the texts under paths: what reading one
gives, and which paths lead to the same file. A disk in memory is seen so too.
-/

namespace Traceability

/-- What is seen of the states of a file system: the text under a path, or why there is none, and
whether two paths name the same file. -/
structure FileView (σ : Type) where
  text : σ → String → Except ReadFailure String
  aliases : σ → String → String → Prop

/-- From one state to the next, what is under some paths was replaced, and under no other path
that names another file. -/
structure FileView.Replaces {σ : Type} (view : FileView σ) (state next : σ) (paths : List String)
    (result : String → Except ReadFailure String) : Prop where
  own : ∀ path ∈ paths, view.text next path = result path
  others
    : ∀ other, (∀ path ∈ paths, ¬ view.aliases state path other) →
        view.text next other = view.text state other
  aliases : view.aliases next = view.aliases state

/-- Reading gives what is under a path and changes nothing. Writing under a path that has a text
replaces this text. -/
structure FileSystem.Keeps {σ : Type} (fs : FileSystem (StateM σ)) (view : FileView σ) : Prop where
  reads : ∀ state path, (fs.readText path).run state = pure (view.text state path, state)
  writes
    : ∀ state path old content, view.text state path = .ok old →
        ∃ next,
          (fs.writeText path content).run state = pure (.ok (), next)
          ∧ view.Replaces state next [path] (fun _ => .ok content)

-----------------------------------------------------------------------------------------
-- The disk in memory
-----------------------------------------------------------------------------------------

namespace Disk

/-- Two paths name the same file if they lead to the same place. -/
def view : FileView Disk where
  text := readText
  aliases disk path other := ∃ place, disk.place path = .ok place ∧ disk.place other = .ok place

theorem entry?_put {disk : Disk} {place : List String} (below : place ≠ []) (entry : Entry)
    (other : List String)
    : Disk.entry? (disk.put place entry) other
      = if other = place then some entry else disk.entry? other := by
  rw [Disk.entry?, Disk.entry?, put, Std.ExtTreeMap.getElem?_insert]
  by_cases top : other = []
  · rw [if_pos top, if_pos top, if_neg (top ▸ below.symm)]
  · rw [if_neg top, if_neg top]
    by_cases same : other = place
    · rw [if_pos same, if_pos (by simp [same])]
    · rw [if_neg same, if_neg (fun equal => same (Std.LawfulEqOrd.eq_of_compare equal).symm)]

theorem ne_nil_of_text {disk : Disk} {place : List String} {old : String}
    (held : disk.entry? place = some (.text old))
    : place ≠ [] := by
  rintro rfl
  cases held

/-- The way through the directories is the same with another text in a file. -/
theorem follow_put {disk : Disk} {place : List String} {old : String}
    (held : disk.entry? place = some (.text old)) (content : String) (start segments : List String)
    : (disk.put place (.text content)).follow start segments = disk.follow start segments := by
  induction segments generalizing start with
  | nil => rfl
  | cons segment rest ih =>
      rw [follow, follow, entry?_put (ne_nil_of_text held)]
      by_cases same : start = place
      · rw [if_pos same, same, held]
      · rw [if_neg same]
        simp only [ih]

theorem place_put {disk : Disk} {place : List String} {old : String}
    (held : disk.entry? place = some (.text old)) (content path : String)
    : (disk.put place (.text content)).place path = disk.place path := by
  rw [Disk.place, Disk.place, follow_put held]

theorem exists_place_of_readText {disk : Disk} {path old : String}
    (read : disk.readText path = .ok old)
    : ∃ place, disk.place path = .ok place ∧ disk.entry? place = some (.text old) := by
  rw [readText] at read
  split at read
  · cases read
  · next place leads =>
      split at read
      · cases read
      · cases read
      · cases read
      · next content held =>
          cases read
          exact ⟨place, leads, held⟩

theorem fileSystem_keeps : fileSystem.Keeps view where
  reads _ _ := rfl
  writes disk path old content read := by
    obtain ⟨place, leads, held⟩ := exists_place_of_readText read
    have written : disk.writeText path content = .ok (disk.put place (.text content)) := by
      rw [writeText, leads]
      simp only [held]
    have below := ne_nil_of_text held
    refine ⟨disk.put place (.text content), ?_, ?_, ?_, ?_⟩
    · simp only [fileSystem, bind_pure_comp, StateT.run_bind, StateT.run_get, pure_bind, written,
        StateT.run_map, StateT.run_set, map_pure]
    · intro own member
      obtain rfl := List.mem_singleton.mp member
      show readText _ own = _
      rw [readText, place_put held, leads]
      simp only [entry?_put below, if_true]
    · intro other apart
      show readText _ other = readText _ other
      rw [readText, readText, place_put held]
      cases leadsTo : disk.place other with
      | error failure => rfl
      | ok elsewhere =>
          have distinct : elsewhere ≠ place := by
            rintro rfl
            exact apart path List.mem_cons_self ⟨elsewhere, leads, leadsTo⟩
          simp only [entry?_put below, if_neg distinct]
    · funext first second
      simp only [view, place_put held]

end Disk

end Traceability
