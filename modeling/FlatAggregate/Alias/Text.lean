/-!
# Alias text

An alias is spelled from the letters of its kind, a counter padded with zeros to a fixed width, and
an optional hint after an underscore. The hint is a readable fragment of the name behind the alias:
its ASCII letters in upper case, cut to a given number of letters. So every alias with such a hint
is an identifier that no dialect needs to quote.

Every `Kind` of named thing has letters of its own and is numbered by a counter of its own, so the
letters and the number alone tell aliases apart. `padded` does not cut numbers that are longer than
the width.
-/

namespace FlatAggregate.Alias

/-- The hint of `name`: its ASCII letters in upper case, at most `limit` of them. All other
characters, letters of other scripts included, are left out. -/
def hint (name : String) (limit : Nat) : String :=
  String.ofList (((name.toList.filter Char.isAlpha).map Char.toUpper).take limit)

/-- The decimal digits of `n`, padded with zeros on the left to at least `width` digits. -/
def padded (width n : Nat) : String :=
  let digits := Nat.toDigits 10 n
  String.ofList (List.replicate (width - digits.length) '0' ++ digits)

/-- The alias with the given kind letters, counter, counter width and hint. An empty hint leaves no
underscore behind. -/
def text (letters : String) (counter width : Nat) (hint : String) : String :=
  if hint.isEmpty then letters ++ padded width counter
  else letters ++ padded width counter ++ "_" ++ hint

inductive Kind where
  | table
  | column
  | foreignKey
  | view
  | join
  | rowNumber
  | greatest
  | maxOver
  deriving DecidableEq, Repr

def Kind.letters : Kind → String
  | table => "T"
  | column => "C"
  | foreignKey => "FK"
  | view => "V"
  | join => "J"
  | rowNumber => "RN"
  | greatest => "GT"
  | maxOver => "MO"

theorem hint_toList (name : String) (limit : Nat) :
    (hint name limit).toList =
      ((name.toList.filter Char.isAlpha).map Char.toUpper).take limit := by
  simp [hint]

end FlatAggregate.Alias
