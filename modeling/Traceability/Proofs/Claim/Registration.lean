import Mathlib.Data.List.Induction
import Mathlib.Data.List.Nodup
import Traceability.Proofs.Claim.Standard
import Traceability.Proofs.Config.Compile

/-! Registration of claimants.
A claimant that runs after all others sees only what they leave, so it can take lines from the
remainder and from nobody else. Claimants of distinct priorities have one order in which to run,
whatever the order in which they were registered.
-/

namespace Traceability.Registry

-----------------------------------------------------------------------------------------
-- The share of each claimant
-----------------------------------------------------------------------------------------

/-- A partition with blocks put in front of those it has kept. -/
def Partition.behind (blocks : List Block) (partition : Partition) : Partition :=
  { partition with blocks := blocks ++ partition.blocks }

@[simp] theorem Partition.free_behind (blocks : List Block) (partition : Partition)
    : (partition.behind blocks).free = partition.free :=
  rfl

theorem Partition.eq_behind_initial (partition : Partition)
    : partition = (initial partition.free).behind partition.blocks := by
  simp only [initial, behind, List.append_nil]

/-- Blocks that were kept before have no say in what is kept next. -/
theorem Partition.accept_behind (blocks : List Block) (partition : Partition) (block : Block)
    : (partition.behind blocks).accept block = (partition.accept block).behind blocks := by
  by_cases covered : covers partition.free block = true
  · simp only [accept, covered, if_pos, behind, List.append_assoc]
  · simp only [accept, free_behind, covered, Bool.false_eq_true, if_false]

theorem Partition.foldl_accept_behind (blocks : List Block) (partition : Partition)
    (offers : List Block)
    : offers.foldl accept (partition.behind blocks)
      = (offers.foldl accept partition).behind blocks := by
  induction offers generalizing partition with
  | nil => rfl
  | cons offer rest ih => simp only [List.foldl_cons, accept_behind, ih]

theorem Partition.pass_behind (context : ClaimContext) (blocks : List Block)
    (partition : Partition) (claimant : Claimant)
    : (partition.behind blocks).pass context claimant
      = (partition.pass context claimant).behind blocks := by
  by_cases spent : partition.free = []
  · simp only [pass, free_behind, spent, if_pos]
  · simp only [pass, free_behind, spent, if_false, foldl_accept_behind]

theorem Partition.foldl_pass_behind (context : ClaimContext) (blocks : List Block)
    (partition : Partition) (claimants : List Claimant)
    : claimants.foldl (pass context) (partition.behind blocks)
      = (claimants.foldl (pass context) partition).behind blocks := by
  induction claimants generalizing partition with
  | nil => rfl
  | cons claimant rest ih => simp only [List.foldl_cons, pass_behind, ih]

/-- The blocks that are kept of each claimant, in the order in which the claimants run. -/
def sharesFrom (context : ClaimContext)
    : List Claimant → List Line → List (Claimant × List Block)
  | [], _ => []
  | claimant :: rest, free =>
      let after := (Partition.initial free).pass context claimant
      (claimant, after.blocks) :: sharesFrom context rest after.free

/-- The lines that claimants leave free. -/
def leftFrom (context : ClaimContext) (claimants : List Claimant) (free : List Line)
    : List Line :=
  (claimants.foldl (Partition.pass context) (Partition.initial free)).free

/-- What is kept of each claimant of a registry, the remainder last. -/
def shares (registry : Registry) (context : ClaimContext) (lines : List Line)
    : List (Claimant × List Block) :=
  sharesFrom context registry.passes lines

theorem foldl_pass_cons {context : ClaimContext} {claimant : Claimant} {free : List Line}
    {after : Partition} (first : (Partition.initial free).pass context claimant = after)
    (rest : List Claimant)
    : (claimant :: rest).foldl (Partition.pass context) (Partition.initial free)
      = (rest.foldl (Partition.pass context) (Partition.initial after.free)).behind
          after.blocks := by
  subst first
  rw [List.foldl_cons, ← Partition.foldl_pass_behind, ← Partition.eq_behind_initial]

theorem leftFrom_cons (context : ClaimContext) (claimant : Claimant) (rest : List Claimant)
    (free : List Line)
    : leftFrom context (claimant :: rest) free
      = leftFrom context rest ((Partition.initial free).pass context claimant).free := by
  rw [leftFrom, foldl_pass_cons rfl]
  rfl

theorem leftFrom_append (context : ClaimContext) (earlier later : List Claimant)
    (free : List Line)
    : leftFrom context (earlier ++ later) free
      = leftFrom context later (leftFrom context earlier free) := by
  induction earlier generalizing free with
  | nil => rfl
  | cons claimant rest ih => simp only [List.cons_append, leftFrom_cons, ih]

/-- Passes over a whole file keep the shares of the claimants. -/
theorem blocks_foldl_pass (context : ClaimContext) (claimants : List Claimant)
    (free : List Line)
    : (claimants.foldl (Partition.pass context) (Partition.initial free)).blocks
      = (sharesFrom context claimants free).flatMap Prod.snd := by
  induction claimants generalizing free with
  | nil => rfl
  | cons claimant rest ih =>
      rw [foldl_pass_cons rfl, sharesFrom, List.flatMap_cons, ← ih]
      rfl

theorem sharesFrom_append (context : ClaimContext) (earlier later : List Claimant)
    (free : List Line)
    : sharesFrom context (earlier ++ later) free
      = sharesFrom context earlier free
        ++ sharesFrom context later (leftFrom context earlier free) := by
  induction earlier generalizing free with
  | nil => rfl
  | cons claimant rest ih => simp only [List.cons_append, sharesFrom, ih, leftFrom_cons]

theorem map_fst_sharesFrom (context : ClaimContext) (claimants : List Claimant)
    (free : List Line)
    : (sharesFrom context claimants free).map Prod.fst = claimants := by
  induction claimants generalizing free with
  | nil => rfl
  | cons claimant rest ih => simp only [sharesFrom, List.map_cons, ih]

/-- Blocks in the order in which a file lists them. -/
def byFirstLine (blocks : List Block) : List Block :=
  blocks.mergeSort (fun a b => a.startLine ≤ b.startLine)

/-- The blocks of a file are the shares of all claimants, by first line. -/
theorem blocks_eq_shares (registry : Registry) (context : ClaimContext) (lines : List Line)
    : registry.blocks context lines
      = byFirstLine ((registry.shares context lines).flatMap Prod.snd) := by
  have kept : (registry.final context lines).blocks
      = (registry.shares context lines).flatMap Prod.snd :=
    blocks_foldl_pass context registry.passes lines
  rw [← kept]
  rfl

-----------------------------------------------------------------------------------------
-- The share of the remainder
-----------------------------------------------------------------------------------------

/-- The remainder includes exactly the numbers of the lines that are free before it. -/
theorem exists_remainder_iff {free : List Line} (ascending : Line.Ascending free)
    (context : ClaimContext) (n : Nat)
    : (∃ block ∈ ((Partition.initial free).pass context Claim.remainder).blocks,
        block.includes n = true)
      ↔ n ∈ free.map Line.number := by
  have initial := Partition.valid_initial free
  have valid := initial.pass ascending context Claim.remainder
  constructor
  · rintro ⟨block, member, inside⟩
    exact valid.within block member n inside
  · intro member
    by_contra none
    have left := valid.mem_free_iff.mpr
      ⟨member, fun block kept inside => none ⟨block, kept, inside⟩⟩
    rw [pass_remainder_free ascending initial context] at left
    cases left

-----------------------------------------------------------------------------------------
-- The order of claimants
-----------------------------------------------------------------------------------------

/-- A claimant whose priority is not lower than any other runs last. -/
theorem insertByPriority_eq_append {claimant : Claimant} {claimants : List Claimant}
    (last : ∀ other ∈ claimants, other.priority ≤ claimant.priority)
    : insertByPriority claimant claimants = claimants ++ [claimant] := by
  induction claimants with
  | nil => rfl
  | cons other rest ih =>
      have later := ih (fun another member => last another (List.mem_cons_of_mem _ member))
      simp only [insertByPriority, if_pos (last other List.mem_cons_self), later, List.cons_append]

theorem insertByPriority_perm (claimant : Claimant) (claimants : List Claimant)
    : (insertByPriority claimant claimants).Perm (claimant :: claimants) := by
  induction claimants with
  | nil => exact .refl _
  | cons other rest ih =>
      rw [insertByPriority]
      split
      · exact (ih.cons other).trans (.swap claimant other rest)
      · exact .refl _

/-- Claimants stand in the order in which they run. -/
def ByPriority (claimants : List Claimant) : Prop :=
  claimants.Pairwise (fun a b => a.priority ≤ b.priority)

theorem ByPriority.insert {claimants : List Claimant} (sorted : ByPriority claimants)
    (claimant : Claimant)
    : ByPriority (insertByPriority claimant claimants) := by
  induction claimants with
  | nil => exact List.pairwise_singleton _ _
  | cons other rest ih =>
      obtain ⟨below, later⟩ := List.pairwise_cons.mp sorted
      rw [insertByPriority]
      split
      · next before =>
          refine List.pairwise_cons.mpr ⟨fun another member => ?_, ih later⟩
          rcases List.mem_cons.mp ((insertByPriority_perm claimant rest).mem_iff.mp member) with
            rfl | old
          · exact before
          · exact below another old
      · next behind =>
          refine List.pairwise_cons.mpr ⟨fun another member => ?_, sorted⟩
          have first : claimant.priority ≤ other.priority := by omega
          rcases List.mem_cons.mp member with rfl | old
          · exact first
          · exact Nat.le_trans first (below another old)

/-- Registration one after the other keeps the claimants and puts them in order. -/
theorem ofList_perm_and_byPriority (claimants : List Claimant)
    : (ofList claimants).claimants.Perm claimants
      ∧ ByPriority (ofList claimants).claimants := by
  induction claimants using List.reverseRecOn with
  | nil => exact ⟨.refl _, .nil⟩
  | append_singleton earlier claimant ih =>
      have next : (ofList (earlier ++ [claimant])).claimants
          = insertByPriority claimant (ofList earlier).claimants := by
        simp only [ofList, List.foldl_append, List.foldl_cons, List.foldl_nil, register]
      obtain ⟨perm, sorted⟩ := ih
      rw [next]
      refine ⟨?_, sorted.insert claimant⟩
      exact (insertByPriority_perm claimant _).trans
        ((perm.cons claimant).trans (List.perm_append_singleton claimant earlier).symm)

/-- Claimants of distinct priorities make the same registry in every order. -/
theorem ofList_eq_of_perm {claimants others : List Claimant} (perm : claimants.Perm others)
    (distinct : (claimants.map Claimant.priority).Nodup)
    : ofList claimants = ofList others := by
  obtain ⟨own, sorted⟩ := ofList_perm_and_byPriority claimants
  obtain ⟨same, sortedToo⟩ := ofList_perm_and_byPriority others
  have antisymm (a b : Claimant) (memberA : a ∈ (ofList claimants).claimants)
      (memberB : b ∈ (ofList others).claimants) (below : a.priority ≤ b.priority)
      (above : b.priority ≤ a.priority)
      : a = b := by
    have inA : a ∈ claimants := own.mem_iff.mp memberA
    have inB : b ∈ claimants := perm.mem_iff.mpr (same.mem_iff.mp memberB)
    exact List.inj_on_of_nodup_map distinct inA inB (Nat.le_antisymm below above)
  have equal := List.Perm.eq_of_pairwise antisymm sorted sortedToo
    (own.trans (perm.trans same.symm))
  exact congrArg Registry.mk equal

-----------------------------------------------------------------------------------------
-- Reading a file
-----------------------------------------------------------------------------------------

/-- The shares of a registry are those of its claimants and that of the remainder, which gets
what they leave. -/
theorem shares_eq {registry : Registry} {claimants : List Claimant}
    (own : registry.claimants = claimants) (context : ClaimContext) (lines : List Line)
    : registry.shares context lines
      = sharesFrom context claimants lines
        ++ sharesFrom context [Claim.remainder] (leftFrom context claimants lines) := by
  rw [shares, passes, own, sharesFrom_append]

/-- Registration cannot disturb the claimants that run earlier. One that runs after all others
gets its share from what they leave, so theirs stay the same, and every line in a block of the
remainder was in one before. Claimants of distinct priorities read every file in the same way,
whatever the order in which they were registered. -/
theorem parseFile_registration (scheme : Scheme) (path text : String)
    : (∀ (registry : Registry) (claimant : Claimant),
        (∀ other ∈ registry.claimants, other.priority ≤ claimant.priority) →
        let context : ClaimContext := { path, scheme }
        let lines := Line.ofText text
        ∃ (kept : List (Claimant × List Block)) (own left before : List Block),
          kept.map Prod.fst = registry.claimants
          ∧ registry.shares context lines = kept ++ [(Claim.remainder, before)]
          ∧ (registry.register claimant).shares context lines
            = kept ++ [(claimant, own), (Claim.remainder, left)]
          ∧ (registry.parseFile scheme path text).blocks
            = byFirstLine (kept.flatMap Prod.snd ++ before)
          ∧ ((registry.register claimant).parseFile scheme path text).blocks
            = byFirstLine (kept.flatMap Prod.snd ++ own ++ left)
          ∧ ∀ n,
              (∃ block ∈ left, block.includes n = true) →
              ∃ block ∈ before, block.includes n = true)
      ∧ ∀ claimants others : List Claimant,
          claimants.Perm others → (claimants.map Claimant.priority).Nodup →
          (ofList claimants).parseFile scheme path text
            = (ofList others).parseFile scheme path text := by
  refine ⟨fun registry claimant last => ?_, fun claimants others perm distinct => ?_⟩
  · intro context lines
    let free := leftFrom context registry.claimants lines
    let after := (Partition.initial free).pass context claimant
    have shared : registry.shares context lines
        = sharesFrom context registry.claimants lines
          ++ [(Claim.remainder, ((Partition.initial free).pass context Claim.remainder).blocks)] :=
      shares_eq rfl context lines
    have registered : (registry.register claimant).shares context lines
        = sharesFrom context registry.claimants lines
          ++ [(claimant, after.blocks),
            (Claim.remainder,
              ((Partition.initial after.free).pass context Claim.remainder).blocks)] := by
      have listed : (registry.register claimant).claimants = registry.claimants ++ [claimant] :=
        insertByPriority_eq_append last
      rw [shares_eq listed, sharesFrom_append, leftFrom_append, List.append_assoc]
      rfl
    have ascending : Line.Ascending free :=
      (Line.ascending_ofText text).sublist (free_foldl_pass_sublist context _ _)
    have fewer : after.free.Sublist free := free_pass_sublist context _ claimant
    refine ⟨_, _, _, _, map_fst_sharesFrom context _ lines, shared, registered, ?_, ?_, ?_⟩
    · rw [parseFile, blocks_eq_shares, shared, List.flatMap_append, List.flatMap_singleton]
    · rw [parseFile, blocks_eq_shares, registered, List.flatMap_append, List.flatMap_cons,
        List.flatMap_singleton, List.append_assoc]
    · intro n inside
      have still := (exists_remainder_iff (ascending.sublist fewer) context n).mp inside
      exact (exists_remainder_iff ascending context n).mpr ((fewer.map Line.number).mem still)
  · rw [ofList_eq_of_perm perm distinct]

/-- A claimant that offers all lines, then one that is left, then one that does not exist. -/
def greedy : Claimant where
  name := "greedy"
  priority := 80
  claim _ _ := [(1, 4), (3, 3), (5, 5)].map (fun (first, last) => ⟨first, last, "", .remainder⟩)

/-- A requirement and two lines that are left to the remainder. -/
def trailedText : String :=
  "# REQ-p00001: A\n*End* *A*\nx\ny\n"

theorem parseFile_registration_greedy
    : (∀ other ∈ standard.claimants, other.priority ≤ greedy.priority)
      ∧ ([Claim.journey, Claim.requirement].map Claimant.priority).Nodup
      ∧ (∃ kept own left before,
          standard.shares ⟨"spec.md", Config.defaultScheme⟩ (Line.ofText trailedText)
            = kept ++ [(Claim.remainder, before)]
          ∧ (standard.register greedy).shares ⟨"spec.md", Config.defaultScheme⟩
              (Line.ofText trailedText)
            = kept ++ [(greedy, own), (Claim.remainder, left)])
      ∧ ((standard.register greedy).shares ⟨"spec.md", Config.defaultScheme⟩
            (Line.ofText trailedText)).map
          (fun (claimant, blocks) =>
            (claimant.name, blocks.map (fun block => (block.startLine, block.endLine))))
        = [("comment", []), ("requirement", [(1, 2)]), ("journey", []), ("code-ref", []),
          ("test-ref", []), ("greedy", [(3, 3)]), ("remainder", [(4, 4)])]
      ∧ (ofList [Claim.journey, Claim.requirement]).parseFile Config.defaultScheme "spec.md"
          trailedText
        = (ofList [Claim.requirement, Claim.journey]).parseFile Config.defaultScheme "spec.md"
          trailedText := by
  have last : ∀ other ∈ standard.claimants, other.priority ≤ greedy.priority := by decide
  have distinct : ([Claim.journey, Claim.requirement].map Claimant.priority).Nodup := by decide
  obtain ⟨undisturbed, reordered⟩ :=
    parseFile_registration Config.defaultScheme "spec.md" trailedText
  obtain ⟨kept, own, left, before, -, shared, registered, -⟩ := undisturbed standard greedy last
  exact ⟨last, distinct, ⟨kept, own, left, before, shared, registered⟩, by decide +kernel,
    reordered _ _ (.swap _ _ _) distinct⟩

end Traceability.Registry
