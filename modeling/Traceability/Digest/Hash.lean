import Traceability.Digest.Canonical
import Traceability.Digest.Sha256
import Traceability.Text.Caseless

/-! Stored hashes of bodies.
A closing marker may carry the first digits of the digest of its body. A body that was edited
since no longer has that digest.
-/

namespace Traceability

/-- The result of comparing a stored hash with a body. -/
inductive HashStatus where
  | valid
  | mismatch
  | missing
deriving Repr, DecidableEq

def HashStatus.word : HashStatus → String
  | .valid => "valid"
  | .mismatch => "mismatch"
  | .missing => "missing"

namespace BodyHash

/-- The digits that a text has as its digest. -/
def digest (text : List Char) : List Char :=
  Sha256.hex (String.ofList text).toUTF8.data.toList

/-- The first digits of the digest of a body in canonical form. -/
def compute (body : String) (length : Nat) : String :=
  String.ofList ((digest (Canonical.form body.toList)).take length)

/-- Compares a stored hash with a body, the case of letters aside. -/
def verify (body : String) (stored : Option String) (length : Nat) : HashStatus :=
  match stored with
  | none => .missing
  | some stored =>
      if Text.sameIgnoringCase stored (compute body length) then .valid else .mismatch

end BodyHash

end Traceability
