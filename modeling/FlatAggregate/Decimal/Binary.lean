/-!
# Binary floating point numbers

A finite double stands for a sign, a whole number `mantissa` and a power of two. This module reads
these from its bits, so that decimal texts can be computed in exact arithmetic.

The number is `mantissa * 2 ^ exponent`, negated if `negative`; `quotient` gives its size as a
quotient of whole numbers. The doubles next to a power of two are not equally far away: below it
they lie twice as close, which `narrowBelow` records.
-/

namespace FlatAggregate.Decimal

/-- The finite number `mantissa * 2 ^ exponent`, negated if `negative`. -/
structure Binary where
  negative : Bool
  mantissa : Nat
  exponent : Int
  /-- Whether the next smaller number is only half as far away as the next greater one. -/
  narrowBelow : Bool
  deriving DecidableEq, Repr

/-- The parts of a double; infinities and NaN have none. -/
def Binary.ofFloat? (x : Float) : Option Binary :=
  let bits : Nat := x.toBits.toNat
  let negative := bits / Nat.pow 2 63 = 1
  let biased : Nat := bits / Nat.pow 2 52 % Nat.pow 2 11
  let fraction : Nat := bits % Nat.pow 2 52
  if biased = 2047 then none
  else if biased = 0 then some ⟨negative, fraction, -1074, false⟩
  else some ⟨negative, Nat.pow 2 52 + fraction, (biased : Int) - 1075, fraction = 0 && 1 < biased⟩

namespace Binary

def quotient (x : Binary) : Nat × Nat :=
  (x.mantissa * Nat.pow 2 x.exponent.toNat, Nat.pow 2 (-x.exponent).toNat)

end Binary

end FlatAggregate.Decimal
