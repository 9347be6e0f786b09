import FlatAggregate.Decimal.Binary

/-!
# Shortest decimals

The shortest decimal of a double has the fewest digits that are read back as that double; of several
such decimals it is the one nearest to the double. Where two are equally near, either may be asked
for: the greater, or the one with an even last digit.

The decimals that are read back as a given double fill an interval around it. On the grid of the
multiples of a power of ten, only the two neighbours of the double need a test. The coarsest grid
with a neighbour in the interval gives the digits.

A `Scientific` is the number `digits * 10 ^ exponent`. `neighbour?` tries one grid, with `nearer`
for the choice between two and `between` for the test, and `shortest` tries the grids one after the
other. A `Layout` says which decimals are written out in full (`positional`) and which with an
exponent (`exponential`): `full` writes all of them out, `compact` those of moderate size.
-/

namespace FlatAggregate.Decimal

/-- The number `digits * 10 ^ exponent`. -/
structure Scientific where
  digits : Nat
  exponent : Int
  deriving DecidableEq, Repr

inductive Tie where
  | greater
  | even
  deriving DecidableEq, Repr

def nearer (tie : Tie) (value unit below : Nat) : Nat :=
  let distance := value - below * unit
  let other := (below + 1) * unit - value
  if distance < other then below
  else if other < distance then below + 1
  else if tie = .even && below % 2 = 0 then below
  else below + 1

def between (low high : Nat) (closed : Bool) (n : Nat) : Bool :=
  if closed then low ≤ n && n ≤ high else low < n && n < high

/-- The neighbour of `x` on the grid of the multiples of `10 ^ exponent` that is read back as `x`,
the nearer of two. -/
def neighbour? (tie : Tie) (x : Binary) (exponent : Int) : Option Scientific :=
  -- everything is brought to the common unit of a quarter step of `x` over powers of two and ten
  let two := Nat.pow 2 (x.exponent - 2).toNat
  let twoBelow := Nat.pow 2 (2 - x.exponent).toNat
  let ten := Nat.pow 10 exponent.toNat * twoBelow
  let unit := two * Nat.pow 10 (-exponent).toNat
  let value := 4 * x.mantissa * unit
  let low := (4 * x.mantissa - if x.narrowBelow then 1 else 2) * unit
  let high := (4 * x.mantissa + 2) * unit
  let closed := x.mantissa % 2 = 0
  let below := value / ten
  let above := below + 1
  let belowFits := 0 < below && between low high closed (below * ten)
  let aboveFits := between low high closed (above * ten)
  if belowFits && aboveFits then some ⟨nearer tie value ten below, exponent⟩
  else if belowFits then some ⟨below, exponent⟩
  else if aboveFits then some ⟨above, exponent⟩
  else none

/-- The shortest decimal of a number that is not zero; zero has itself. -/
def shortest (tie : Tie) (x : Binary) : Scientific :=
  if x.mantissa = 0 then ⟨0, 0⟩
  else ((List.range 650).findSome? fun (i : Nat) => neighbour? tie x (309 - (i : Int))).getD ⟨0, 0⟩

/-- Which decimals are written out in full, and which of two equally near ones is taken. -/
structure Layout where
  /-- The least power of ten of a leading digit that is written without an exponent. -/
  leastPositional : Int
  /-- The greatest such power. -/
  greatestPositional : Int
  tie : Tie
  deriving DecidableEq, Repr

namespace Layout

def full : Layout := ⟨-400, 400, .greater⟩

/-- Numbers from a hundred thousandth up to ten to the sixteenth are written in full, others with
an exponent. -/
def compact : Layout := ⟨-5, 15, .even⟩

end Layout

def positional (x : Scientific) : String :=
  let digits := Nat.toDigits 10 x.digits
  let digits := digits ++ List.replicate x.exponent.toNat '0'
  let places := (-x.exponent).toNat
  let digits := List.replicate (places + 1 - digits.length) '0' ++ digits
  let split := digits.length - places
  let fraction := if places = 0 then ['0'] else digits.drop split
  String.ofList (digits.take split ++ '.' :: fraction)

/-- A decimal written with one digit before the point, if there are several, and an exponent with
its sign. -/
def exponential (x : Scientific) : String :=
  let digits := Nat.toDigits 10 x.digits
  let power := x.exponent + (digits.length - 1 : Nat)
  let mantissa :=
    match digits with
    | first :: second :: rest => first :: '.' :: second :: rest
    | short => short
  String.ofList mantissa ++ (if power < 0 then "e" else "e+") ++ toString power

def text (layout : Layout) (x : Binary) : String :=
  let short := shortest layout.tie x
  let power := short.exponent + ((Nat.toDigits 10 short.digits).length - 1 : Nat)
  let size :=
    if layout.leastPositional ≤ power && power ≤ layout.greatestPositional then positional short
    else exponential short
  (if x.negative then "-" else "") ++ size

end FlatAggregate.Decimal
