import FlatAggregate.Decimal.Binary

/-!
# Decimals with fixed places

A number with a given count of decimal places, rounded to the nearest; a half goes to the even
neighbour.

`fixed` writes the number: it is rounded to a whole count of the last place by `roundDiv`, and
`pointed` puts the point before the last digits. Both work on whole numbers, so nothing is lost on
the way.
-/

namespace FlatAggregate.Decimal

/-- The whole number nearest to `num / den`, an exact half going to the even neighbour. -/
def roundDiv (num den : Nat) : Nat :=
  let whole := num / den
  let twice := 2 * (num % den)
  if twice < den then whole
  else if den < twice then whole + 1
  else if whole % 2 = 0 then whole else whole + 1

/-- The digits of a whole number with a point before the last `places` of them. -/
def pointed (places n : Nat) : String :=
  let digits := Nat.toDigits 10 n
  let digits := List.replicate (places + 1 - digits.length) '0' ++ digits
  let split := digits.length - places
  String.ofList (digits.take split ++ '.' :: digits.drop split)

def fixed (places : Nat) (x : Binary) : String :=
  let (num, den) := x.quotient
  (if x.negative then "-" else "") ++ pointed places (roundDiv (num * Nat.pow 10 places) den)

end FlatAggregate.Decimal
