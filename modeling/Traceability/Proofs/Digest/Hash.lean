import Traceability.Digest.Hash
import Traceability.Proofs.Text.Search

/-! The form of computed hashes.
A digest is written with the sixteen digits of base 16, so a hash is a run of such digits that
is as long as asked for, up to the length of a digest. It always agrees with itself.
-/

namespace Traceability

/-- The digits of base 16, in both cases. -/
def hexDigits : List Char := "0123456789abcdefABCDEF".toList

/-- No digit is a blank or one of the signs of a closing marker. -/
theorem isBlank_of_mem_hexDigits {c : Char} (member : c ∈ hexDigits)
    : Text.isBlank c = false := by
  have all : ∀ c ∈ hexDigits, Text.isBlank c = false := Text.forall_mem_of_all (by decide)
  exact all c member

namespace Sha256

theorem digitChar_mem_hexDigits {n : Nat} (small : n < 16)
    : Nat.digitChar n ∈ hexDigits := by
  have all : ∀ n < 16, Nat.digitChar n ∈ hexDigits := by decide
  exact all n small

theorem mem_hex {message : List UInt8} {c : Char} (member : c ∈ hex message)
    : c ∈ hexDigits := by
  rw [hex, State.toHex] at member
  obtain ⟨word, -, digit⟩ := List.mem_flatMap.mp member
  obtain ⟨i, -, rfl⟩ := List.mem_map.mp digit
  exact digitChar_mem_hexDigits (Nat.mod_lt _ (by decide))

end Sha256

namespace BodyHash

/-- A text that may have been computed as a hash at some permitted length, letters in any
case. -/
structure Producible (hash : String) : Prop where
  long : 4 ≤ hash.toList.length
  short : hash.toList.length ≤ 64
  digits : ∀ c ∈ hash.toList, c ∈ hexDigits

instance (hash : String) : Decidable (Producible hash) :=
  decidable_of_iff
    (4 ≤ hash.toList.length ∧ hash.toList.length ≤ 64
      ∧ hash.toList.all (fun c => hexDigits.contains c) = true)
    (by
      simp only [List.all_eq_true, List.contains_iff_mem]
      exact ⟨fun ⟨long, short, digits⟩ => ⟨long, short, digits⟩,
        fun producible => ⟨producible.long, producible.short, producible.digits⟩⟩)

theorem length_compute {body : String} {length : Nat} (short : length ≤ 64)
    : (compute body length).toList.length = length := by
  rw [compute, String.toList_ofList, List.length_take, digest, Sha256.length_hex]
  exact Nat.min_eq_left short

theorem producible_compute (body : String) {length : Nat} (long : 4 ≤ length)
    (short : length ≤ 64)
    : Producible (compute body length) where
  long := (length_compute short).symm ▸ long
  short := (length_compute short).symm ▸ short
  digits c member := by
    rw [compute, String.toList_ofList] at member
    exact Sha256.mem_hex (List.mem_of_mem_take member)

theorem verify_compute (body : String) (length : Nat)
    : verify body (some (compute body length)) length = .valid := by
  simp [verify, Text.sameIgnoringCase, Text.sameLetters]

end BodyHash

end Traceability
