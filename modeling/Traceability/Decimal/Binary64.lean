/-! Numbers with fifty-three significant bits.
Fractions are reported as the nearest such number, so that a reader who computes with them gets
the same digits. Exponents have no bounds here, since no fraction of a report comes near them.
-/

namespace Traceability

/-- The nearest integer. A half goes to the even neighbour. -/
def roundHalfEven (q : Rat) : Int :=
  let below := q.floor
  let rest := q - below
  if rest < 1 / 2 then below
  else if 1 / 2 < rest then below + 1
  else if below % 2 = 0 then below
  else below + 1

/-- The number `mantissa * 2 ^ exponent`. Unless it is zero, the mantissa has fifty-three bits. -/
structure Binary64 where
  mantissa : Nat
  exponent : Int
deriving Repr, DecidableEq

namespace Binary64

/-- The least number of fifty-three bits. -/
def leastMantissa : Nat := Nat.pow 2 52

def powerOfTwo (e : Int) : Rat :=
  if 0 ≤ e then (Nat.pow 2 e.toNat : Rat) else 1 / (Nat.pow 2 (-e).toNat : Rat)

def value (x : Binary64) : Rat :=
  (x.mantissa : Rat) * powerOfTwo x.exponent

/-- The number nearest to one that is not negative. -/
def nearest (q : Rat) : Binary64 :=
  if q ≤ 0 then ⟨0, 0⟩
  else
    let guess : Int := (Nat.log2 q.num.toNat : Int) - (Nat.log2 q.den : Int) - 52
    let exponent :=
      if (leastMantissa : Rat) ≤ q / powerOfTwo guess then guess else guess - 1
    let mantissa := (roundHalfEven (q / powerOfTwo exponent)).toNat
    if mantissa = 2 * leastMantissa then ⟨leastMantissa, exponent + 1⟩ else ⟨mantissa, exponent⟩

/-- Whether a number would be rounded to this one. The two ends of its interval, which lie
halfway to its neighbours, belong to the even mantissa. -/
def isNearestTo (x : Binary64) (q : Rat) : Bool :=
  let gap := powerOfTwo x.exponent
  let low := x.value - (if x.mantissa = leastMantissa then gap / 4 else gap / 2)
  let high := x.value + gap / 2
  if x.mantissa % 2 = 0 then low ≤ q && q ≤ high else low < q && q < high

end Binary64

end Traceability
