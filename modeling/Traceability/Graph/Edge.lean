/-! Edges of the traceability graph.
An edge goes from the node that depends to the node that it depends on. Its target need not
exist, since a broken reference is an edge too.
-/

namespace Traceability

inductive EdgeKind where
  | implements
  | refines
  | validates
  | addresses
  | contains
deriving Repr, DecidableEq

namespace EdgeKind

def word : EdgeKind → String
  | .implements => "IMPLEMENTS"
  | .refines => "REFINES"
  | .validates => "VALIDATES"
  | .addresses => "ADDRESSES"
  | .contains => "CONTAINS"

/-- The position of a kind where references are listed by kind. -/
def rank : EdgeKind → Nat
  | .implements => 0
  | .refines => 1
  | .validates => 2
  | .addresses => 3
  | .contains => 4

/-- Whether an edge is evidence for what it points at. -/
def covers : EdgeKind → Bool
  | .implements => true
  | .validates => true
  | _ => false

/-- Whether an edge places a requirement under a parent. -/
def isParentage : EdgeKind → Bool
  | .implements => true
  | .refines => true
  | _ => false

theorem isParentage_iff {kind : EdgeKind}
    : kind.isParentage = true ↔ kind = .implements ∨ kind = .refines := by
  cases kind <;> simp [isParentage]

end EdgeKind

/-- An edge. The letters narrow it to assertions of its target, and the line is the one of the
reference in the file of its source. -/
structure Edge where
  source : String
  target : String
  kind : EdgeKind
  letters : List String := []
  line : Nat := 0
deriving Repr, DecidableEq

/-- Whether two edges say the same, wherever they are written. -/
def Edge.same (a b : Edge) : Bool :=
  a.source == b.source && a.target == b.target && a.kind == b.kind && a.letters == b.letters

namespace Edge

theorem same_iff {a b : Edge}
    : a.same b = true
      ↔ a.source = b.source ∧ a.target = b.target ∧ a.kind = b.kind ∧ a.letters = b.letters := by
  simp only [same, Bool.and_eq_true, beq_iff_eq, and_assoc]

theorem same_refl (a : Edge) : a.same a = true :=
  same_iff.mpr ⟨rfl, rfl, rfl, rfl⟩

theorem same_comm (a b : Edge) : a.same b = b.same a := by
  rw [Bool.eq_iff_iff, same_iff, same_iff]
  simp only [eq_comm]

theorem same_trans {a b c : Edge} (first : a.same b = true) (second : b.same c = true)
    : a.same c = true := by
  obtain ⟨source, target, kind, letters⟩ := same_iff.mp first
  obtain ⟨source', target', kind', letters'⟩ := same_iff.mp second
  exact same_iff.mpr ⟨source.trans source', target.trans target', kind.trans kind',
    letters.trans letters'⟩

/-- Edges that say the same agree on which edges say the same as they do. -/
theorem same_eq_of_same {a b : Edge} (same : a.same b = true) : a.same = b.same := by
  funext c
  have back : b.same a = true := (b.same_comm a).trans same
  exact Bool.eq_iff_iff.mpr ⟨same_trans back, same_trans same⟩

end Edge

end Traceability
