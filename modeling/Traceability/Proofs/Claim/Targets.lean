import Traceability.Proofs.Claim.Standard

/-! What references in code and tests point at.
A marker keeps only words that start with the identifier prefix, and so do the identifiers that
are read from the names of test functions. So every target of a reference starts as a requirement
identifier does.
-/

namespace Traceability

/-- An identifier starts as requirement identifiers do. -/
def Scheme.Prefixed (scheme : Scheme) (id : String) : Prop :=
  ∃ rest, id.toList = scheme.idPrefix.toList ++ '-' :: rest

/-- All targets of a reference start as requirement identifiers do. -/
def Reference.Prefixed (scheme : Scheme) (reference : Reference) : Prop :=
  ∀ target ∈ reference.targets, scheme.Prefixed target.id

/-- So do the targets of a block, if it holds a reference. -/
def Content.Prefixed (scheme : Scheme) : Content → Prop
  | .codeReference reference => reference.Prefixed scheme
  | .testReference reference => reference.Prefixed scheme
  | _ => True

namespace Claim.Reference

variable {scheme : Scheme}

-----------------------------------------------------------------------------------------
-- Markers
-----------------------------------------------------------------------------------------

theorem prefixed_of_mem_targetsOn {words : List (List Char)}
    (named : ∀ word ∈ words, Marker.isTarget scheme.idPrefix word = true) {number : Nat}
    : ∀ target ∈ targetsOn number words, scheme.Prefixed target.id := by
  intro target member
  obtain ⟨word, own, rfl⟩ := List.mem_map.mp member
  obtain ⟨rest, split⟩ := List.isPrefixOf_iff_prefix.mp (named word own)
  refine ⟨rest, ?_⟩
  rw [String.toList_ofList, ← split, List.append_assoc, List.singleton_append]

/-- Continuation lines hold only targets. -/
theorem prefixed_of_mem_continuations {line : Line} {rest : List Line} {targets : List Target}
    (member : targets ∈ continuations scheme.idPrefix line rest)
    : ∀ target ∈ targets, scheme.Prefixed target.id := by
  obtain ⟨next, -, read⟩ := exists_of_mem_continuations member
  obtain ⟨marked, -, read⟩ := Option.bind_eq_some_iff.mp read
  obtain ⟨⟨-, named⟩, same⟩ := Option.ite_none_right_eq_some.mp read
  rw [← Option.some.inj same]
  exact prefixed_of_mem_targetsOn (List.all_eq_true.mp named)

theorem prefixed_of_marked? {keyword : String} {line : Line} {rest : List Line} {count : Nat}
    {targets : List Target}
    (marked : marked? scheme.idPrefix keyword line rest = some (count, targets))
    : ∀ target ∈ targets, scheme.Prefixed target.id := by
  obtain ⟨tail, -, ⟨-, rfl⟩ | ⟨-, rfl⟩⟩ := marked?_cases marked
  · intro target member
    obtain ⟨list, listed, own⟩ := List.mem_flatten.mp member
    exact prefixed_of_mem_continuations listed target own
  · exact prefixed_of_mem_targetsOn (fun word own => List.of_mem_filter own)

theorem prefixed_of_markers {make : Traceability.Reference → Content} {keyword : String}
    {lines : List Line} {block : Block}
    (member : block ∈ markers make scheme.idPrefix keyword lines)
    : ∃ reference, block.content = make reference ∧ reference.Prefixed scheme := by
  obtain ⟨line, rest, count, targets, -, marked, rfl⟩ := mem_markers member
  exact ⟨_, rfl, prefixed_of_marked? marked⟩

-----------------------------------------------------------------------------------------
-- Names of test functions
-----------------------------------------------------------------------------------------

/-- An identifier in a name is written out with the prefix. -/
theorem prefixed_of_takeId? {s id rest : List Char}
    (taken : Definition.takeId? scheme s = some (id, rest))
    : scheme.Prefixed (String.ofList id) := by
  obtain ⟨⟨code, digits, behind⟩, -, same⟩ := Option.map_eq_some_iff.mp taken
  obtain ⟨rfl, -⟩ := Prod.mk.inj same
  rw [Scheme.Prefixed, String.toList_ofList, Scheme.idText, List.append_assoc, List.cons_append]
  exact ⟨_, rfl⟩

theorem prefixed_of_mem_idsWithin {bound : Nat} {s id : List Char}
    (member : id ∈ Definition.idsWithin scheme bound s)
    : scheme.Prefixed (String.ofList id) := by
  induction bound, s using Definition.idsWithin.induct scheme with
  | case1 s =>
      rw [Definition.idsWithin] at member
      exact absurd member List.not_mem_nil
  | case2 bound =>
      rw [Definition.idsWithin] at member
      · exact absurd member List.not_mem_nil
      · assumption
  | case3 bound c s first rest taken ih =>
      rw [Definition.idsWithin, taken] at member
      rcases List.mem_cons.mp member with rfl | later
      · exact prefixed_of_takeId? taken
      · exact ih later
  | case4 bound c s none ih =>
      rw [Definition.idsWithin, none] at member
      exact ih member

theorem prefixed_of_ofDefinition? {line : Line} {block : Block}
    (defined : ofDefinition? scheme line = some block)
    : ∃ reference, block.content = .testReference reference ∧ reference.Prefixed scheme := by
  obtain ⟨name, -, defined⟩ := Option.bind_eq_some_iff.mp defined
  split at defined
  · split at defined
    · exact absurd defined (by simp)
    · next ids _ =>
        obtain rfl := Option.some.inj defined
        refine ⟨_, rfl, fun target member => ?_⟩
        obtain ⟨id, own, rfl⟩ := List.mem_map.mp member
        exact prefixed_of_mem_idsWithin own
  · exact absurd defined (by simp)

end Claim.Reference

-----------------------------------------------------------------------------------------
-- Blocks of the standard registry
-----------------------------------------------------------------------------------------

namespace Claim

theorem prefixed_of_testReference {context : ClaimContext} {free : List Line} {block : Block}
    (member : block ∈ testReference.claim context free)
    : ∃ reference,
        block.content = .testReference reference ∧ reference.Prefixed context.scheme := by
  rcases cases_of_mem_testReference member with marked | ⟨line, -, defined⟩
  · exact Reference.prefixed_of_markers marked
  · exact Reference.prefixed_of_ofDefinition? defined

end Claim

/-- Only the readers of references read references, and they keep targets that start as
requirement identifiers do. -/
theorem Registry.prefixed_of_mem_blocks {context : ClaimContext} {lines : List Line}
    {block : Block} (member : block ∈ standard.blocks context lines)
    : block.content.Prefixed context.scheme := by
  obtain ⟨claimant, known, free, -, claimed⟩ := mem_blocks_claim member
  have sort := Claim.sort_of_mem_claim known claimed
  cases content : block.content with
  | codeReference reference =>
      simp only [content] at sort
      subst sort
      obtain ⟨other, own, named⟩ := Claim.Reference.prefixed_of_markers claimed
      rw [content] at own
      exact Content.codeReference.inj own ▸ named
  | testReference reference =>
      simp only [content] at sort
      subst sort
      obtain ⟨other, own, named⟩ := Claim.prefixed_of_testReference claimed
      rw [content] at own
      exact Content.testReference.inj own ▸ named
  | comment text decorative => trivial
  | requirement requirement => trivial
  | journey journey => trivial
  | remainder => trivial

end Traceability
