import FlatAggregate.Document.Mismatch
import FlatAggregate.Yaml.Event

/-!
# The values of YAML scalars

A plain scalar without a tag is null, a truth value, a number or text, depending on how it is
written. A tag may ask for one of these, and a scalar in quotes or in a block is text.

An integer may be negative, or have a plus sign, and may be hexadecimal, octal or binary. Digits
after a leading zero make no number.

`integer?` and `number?` read numbers; a decimal is taken to the nearest double, if that is finite.
`found` says what a scalar is, by its tag or else by its text.
-/

namespace FlatAggregate.Yaml

namespace Scalar

/-- Whether text stands for null; the empty text does where nothing is asked for. -/
def isNull (text : String) : Bool := ["~", "null", "Null", "NULL"].contains text

def flag? (text : String) : Option Bool :=
  if ["true", "True", "TRUE"].contains text then some true
  else if ["false", "False", "FALSE"].contains text then some false
  else none

def digits? (base : Nat) : List Char → Option Nat
  | [] => none
  | digits => digits.foldlM (fun number c =>
      match hexDigit? c with
      | some digit => if digit < base then some (base * number + digit) else none
      | none => none) 0

def hasLeadingZero (digits : List Char) : Bool :=
  1 < digits.length && digits.head? = some '0' && digits.all Char.isDigit

def natural? : List Char → Option Nat
  | '0' :: 'x' :: digits => digits? 16 digits
  | '0' :: 'o' :: digits => digits? 8 digits
  | '0' :: 'b' :: digits => digits? 2 digits
  | digits => if hasLeadingZero digits then none else digits? 10 digits

def integer? : List Char → Option Int
  | '-' :: rest => (natural? rest).map fun number => -(number : Int)
  | '+' :: rest => (natural? rest).map Int.ofNat
  | rest => (natural? rest).map Int.ofNat

def exponent? : List Char → Option Int
  | [] => some 0
  | mark :: rest =>
    if mark = 'e' || mark = 'E' then
      match rest with
      | '-' :: digits => (digits? 10 digits).map fun number => -(number : Int)
      | '+' :: digits => (digits? 10 digits).map Int.ofNat
      | digits => (digits? 10 digits).map Int.ofNat
    else none

/-- The double nearest to `digits * 10 ^ exponent`, if it is finite. -/
def float? (digits : Nat) (exponent : Int) : Option Float :=
  let magnitude := exponent + (Nat.toDigits 10 digits).length
  if digits = 0 || magnitude < -400 then some 0
  else if 400 < magnitude then none
  else
    let value := Float.ofScientific digits (exponent < 0) exponent.natAbs
    if value.isFinite then some value else none

def decimal? (text : List Char) : Option Float := do
  let whole := text.takeWhile Char.isDigit
  let rest := text.drop whole.length
  let (fraction, rest) :=
    match rest with
    | '.' :: rest =>
      let fraction := rest.takeWhile Char.isDigit
      (fraction, rest.drop fraction.length)
    | rest => ([], rest)
  let digits ← digits? 10 (whole ++ fraction)
  float? digits ((← exponent? rest) - fraction.length)

def number? (text : List Char) : Option Float :=
  let infinity := [".inf", ".Inf", ".INF"].map String.toList
  if [".nan", ".NaN", ".NAN"].contains (String.ofList text) then some (0 / 0)
  else
    match text with
    | '-' :: rest => if infinity.contains rest then some (-1 / 0) else (decimal? rest).map (-·)
    | '+' :: rest => if infinity.contains rest then some (1 / 0) else decimal? rest
    | rest => if infinity.contains rest then some (1 / 0) else decimal? rest

def foundInteger? (text : String) : Option Found := do
  let value ← integer? text.toList
  if value = 0 && text.toList.head? = some '-' then return .minusZero
  else if Int64.minValue.toInt ≤ value && value < UInt64.size then return .integer value
  else if -Nat.pow 2 127 ≤ value && value < Nat.pow 2 128 then return .wideInteger value
  else none

def untagged (text : String) : Found :=
  if text.isEmpty || isNull text then .null
  else
    match flag? text, foundInteger? text with
    | some flag, _ => .bool flag
    | none, some integer => integer
    | none, none =>
      let unsigned :=
        match text.toList with
        | '-' :: rest | '+' :: rest => rest
        | rest => rest
      match if hasLeadingZero unsigned then none else number? text.toList with
      | some number => .float number
      | none => .text text

def typeTag (name : String) : Tag := .ofText ("tag:yaml.org,2002:" ++ name)

def found (properties : Properties) (text : String) (style : Style) : Except Mismatch Found :=
  let asked (expected : String) (found : Option Found) : Except Mismatch Found :=
    match found with
    | some found => .ok found
    | none => .error (.value (.text text) expected)
  let plain := if style = .plain then untagged text else .text text
  match properties.tag with
  | none => .ok plain
  | some tag =>
    if tag = typeTag "bool" then asked "a boolean" ((flag? text).map .bool)
    else if tag = typeTag "int" then asked "an integer" (foundInteger? text)
    else if tag = typeTag "float" then asked "a float" ((number? text.toList).map .float)
    else if tag = typeTag "null" then asked "null" (if isNull text then some .null else none)
    else .ok (if tag.isOwn then plain else .text text)

end Scalar

end FlatAggregate.Yaml
