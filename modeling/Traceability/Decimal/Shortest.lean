import Traceability.Decimal.Binary64

/-! The shortest decimal text of a fraction.
The text has as few digits after the point as it can, at least one, and still reads back to the
same number. Of two such texts with as many digits the nearer one is taken.
-/

namespace Traceability.Decimal

/-- A number of tenths, hundredths and so on, written with a point. -/
def fixedText (places units : Nat) : String :=
  let scale := Nat.pow 10 places
  let digits := (Nat.toDigits 10 (units % scale)).leftpad places '0'
  toString (units / scale) ++ "." ++ String.ofList digits

/-- The units of this many places that read back, if there are any: one of the two neighbours of
the number on that grid. -/
def unitsAt? (x : Binary64) (places : Nat) : Option Nat :=
  let scale : Rat := (Nat.pow 10 places : Rat)
  let below := (x.value * scale).floor.toNat
  let reads (units : Nat) : Bool := x.isNearestTo ((units : Rat) / scale)
  match reads below, reads (below + 1) with
  | true, true =>
      if (below + 1 : Rat) - x.value * scale < x.value * scale - below then some (below + 1)
      else some below
  | true, false => some below
  | false, true => some (below + 1)
  | false, false => none

/-- The text with at least this many places, trying as many further ones as the bound says. -/
def textFrom (x : Binary64) (places : Nat) : Nat → String
  | 0 => fixedText places ((unitsAt? x places).getD 0)
  | bound + 1 =>
      match unitsAt? x places with
      | some units => fixedText places units
      | none => textFrom x (places + 1) bound

/-- The shortest text that reads back. The number is exact with as many places as its exponent
is below zero. -/
def shortest (x : Binary64) : String :=
  textFrom x 1 (-x.exponent).toNat

/-- The text of a fraction. -/
def fractionText (q : Rat) : String :=
  shortest (Binary64.nearest q)

/-- A fraction in percent, without places. -/
def percent (q : Rat) : Nat :=
  (roundHalfEven (Binary64.nearest ((Binary64.nearest q).value * 100)).value).toNat

end Traceability.Decimal
