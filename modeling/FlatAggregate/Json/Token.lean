import FlatAggregate.Json.Cursor

/-!
# Tokens of JSON text

Words, numbers and strings, read at a cursor.

A number keeps at most the digits that fit in 64 bits; further digits only move the power of ten.
A number with a fraction, an exponent or too many digits is a double. A string is read as bytes
first: the escapes of surrogates come in pairs and stand for one character together.

`number` reads a number behind its sign. `accumulate` takes the digits that fit, `fractionOf` and
`exponentOf` collect the power of ten, and `scaled` makes the double of both. `string` reads a
string behind its quote; `escape` and `unicodeEscape` read what follows a backslash. For text that
does not matter there are `skipNumber` and `skipString`, which check less.
-/

namespace FlatAggregate.Json

open Reader

def word : List UInt8 → Reader Unit
  | [] => pure ()
  | expected :: rest => do
    match ← next with
    | none => fail .endInValue
    | some byte => if byte = expected then word rest else fail .expectedIdent

def isDigit (byte : UInt8) : Bool := 48 ≤ byte && byte ≤ 57

def digitValue (byte : UInt8) : Nat := byte.toNat - 48

/-- Appends digits to a number as long as it stays below `limit`, and says how many were left
out. -/
def accumulate (limit : Nat) : Nat → List UInt8 → Nat × Nat
  | number, [] => (number, 0)
  | number, digit :: rest =>
    let more := number * 10 + digitValue digit
    if more < limit then accumulate limit more rest else (number, rest.length + 1)

inductive Number where
  | integer (value : Int)
  | float (value : Float)
  deriving Repr

def Number.toValue : Number → Value
  | integer value => .integer value
  | float value => .float value

def powerOfTen (exponent : Nat) : Float := Float.ofScientific 1 false exponent

/-- The double `number * 10 ^ exponent`: the number is rounded to a double and multiplied or
divided by powers of ten up to the three hundred and eighth. -/
def scaled (negative : Bool) (number : Nat) (exponent : Int) : Reader Number :=
  let rec descend (fuel : Nat) (x : Float) (exponent : Nat) : Float :=
    match fuel with
    | 0 => x
    | fuel + 1 =>
      if exponent ≤ 308 then x / powerOfTen exponent
      else if x == 0 then x
      else descend fuel (x / powerOfTen 308) (exponent - 308)
  let signed (x : Float) := Number.float (if negative then -x else x)
  let x := number.toUInt64.toFloat
  match exponent with
  | .ofNat exponent =>
    if exponent ≤ 308 then
      let product := x * powerOfTen exponent
      if product.isInf then fail .numberOutOfRange else pure (signed product)
    else if number = 0 then pure (signed x)
    else fail .numberOutOfRange
  | .negSucc exponent => pure (signed (descend (exponent + 1) x (exponent + 1)))

def exponentOf (negative : Bool) (number : Nat) (exponent : Int) : Reader Number := do
  let below ← do
    match ← peek with
    | some 43 => skip; pure false
    | some 45 => skip; pure true
    | _ => pure false
  match ← next with
  | none => fail .endInValue
  | some first =>
    if !isDigit first then fail .invalidNumber
    else
      let start ← get
      let digits ← takeWhile isDigit
      let (power, left) := accumulate (Nat.pow 2 31) (digitValue first) digits
      if left = 0 then scaled negative number (if below then exponent - power else exponent + power)
      else if number ≠ 0 && !below then
        -- the digit that was too much is the last one read
        set { start with
          rest := start.rest.drop (digits.length - left + 1)
          offset := start.offset + (digits.length - left + 1) }
        fail .numberOutOfRange
      else pure (.float (if negative then -0.0 else 0.0))

/-- Reads what may follow the digits of a number with an exponent of ten so far. -/
def fractionOf (negative : Bool) (number : Nat) (exponent : Int) : Reader Number := do
  match ← peek with
  | some 46 =>
    skip
    let digits ← takeWhile isDigit
    if digits.isEmpty then
      match ← peek with
      | some _ => failNext .invalidNumber
      | none => failNext .endInValue
    else
      let (number, left) := accumulate UInt64.size number digits
      let exponent := exponent - (digits.length - left : Nat)
      match ← peek with
      | some 69 | some 101 => skip; exponentOf negative number exponent
      | _ => scaled negative number exponent
  | some 69 | some 101 => skip; exponentOf negative number exponent
  | _ => scaled negative number exponent

def number (negative : Bool) : Reader Number := do
  match ← next with
  | none => fail .endInValue
  | some first =>
    if !isDigit first then fail .invalidNumber
    else
      let digits ← if first = 48 then pure [] else takeWhile isDigit
      let following ← peek
      if first = 48 && (following.map isDigit).getD false then failNext .invalidNumber
      else
        let (number, left) := accumulate UInt64.size (digitValue first) digits
        if left = 0 && following ≠ some 46 && following ≠ some 69 && following ≠ some 101 then
          if !negative then pure (.integer number)
          else if 0 < number && number ≤ Nat.pow 2 63 then pure (.integer (-number))
          else pure (.float (-number.toUInt64.toFloat))
        else fractionOf negative number left

def skipNumber : Reader Unit := do
  match ← next with
  | none => fail .invalidNumber
  | some first =>
    if !isDigit first then fail .invalidNumber
    else
      if first ≠ 48 then discard (takeWhile isDigit)
      else if ((← peek).map isDigit).getD false then failNext .invalidNumber
      if (← peek) = some 46 then
        skip
        if (← takeWhile isDigit).isEmpty then failNext .invalidNumber
      match ← peek with
      | some 69 | some 101 =>
        skip
        match ← peek with
        | some 43 | some 45 => skip
        | _ => pure ()
        match ← next with
        | some digit => if isDigit digit then discard (takeWhile isDigit) else fail .invalidNumber
        | none => fail .invalidNumber
      | _ => pure ()

def hexValue? (byte : UInt8) : Option Nat :=
  let code := byte.toNat
  if 48 ≤ code ∧ code ≤ 57 then some (code - 48)
  else if 65 ≤ code ∧ code ≤ 70 then some (code - 55)
  else if 97 ≤ code ∧ code ≤ 102 then some (code - 87)
  else none

def hexEscape : Reader Nat := fun cursor =>
  match cursor.rest with
  | a :: b :: c :: d :: rest =>
    let after := { cursor with rest, offset := cursor.offset + 4 }
    match hexValue? a, hexValue? b, hexValue? c, hexValue? d with
    | some a, some b, some c, some d => .ok (((a * 16 + b) * 16 + c) * 16 + d) after
    | _, _, _, _ => fail .invalidEscape after
  | short => fail .endInString { cursor with rest := [], offset := cursor.offset + short.length }

def utf8 (code : Nat) : List UInt8 := (Char.ofNat code).toString.toUTF8.toList

def pairByte (expected : UInt8) : Reader Unit := do
  match ← peek with
  | none => fail .endInString
  | some byte =>
    skip
    if byte ≠ expected then fail .endOfHexEscape

def unicodeEscape : Reader (List UInt8) := do
  let unit ← hexEscape
  if 0xdc00 ≤ unit && unit ≤ 0xdfff then fail .loneSurrogate
  else if 0xd800 ≤ unit && unit ≤ 0xdbff then
    pairByte 92
    pairByte 117
    let low ← hexEscape
    if low < 0xdc00 || 0xdfff < low then fail .loneSurrogate
    else pure (utf8 (0x10000 + (unit - 0xd800) * 0x400 + (low - 0xdc00)))
  else pure (utf8 unit)

/-- Reads an escape; the backslash has been read. Where the text does not matter, `byNumber` only
moves past the digits. -/
def escape (byNumber : Reader (List UInt8)) : Reader (List UInt8) := do
  match ← next with
  | none => fail .endInString
  | some 34 => pure [34]
  | some 92 => pure [92]
  | some 47 => pure [47]
  | some 98 => pure [8]
  | some 102 => pure [12]
  | some 110 => pure [10]
  | some 114 => pure [13]
  | some 116 => pure [9]
  | some 117 => byNumber
  | some _ => fail .invalidEscape

def isPlain (byte : UInt8) : Bool := 32 ≤ byte && byte ≠ 34 && byte ≠ 92

/-- Reads the bytes of a string up to the closing quote; the opening one has been read. -/
def stringBytes : (fuel : Nat) → Reader (List UInt8)
  | 0 => fail .endInString
  | fuel + 1 => do
    let plain ← takeWhile isPlain
    match ← next with
    | none => fail .endInString
    | some 34 => pure plain
    | some 92 =>
      let escaped ← escape unicodeEscape
      return plain ++ escaped ++ (← stringBytes fuel)
    | some _ => fail .controlCharacter

def string : Reader String := do
  let bytes ← stringBytes (← bound)
  return (String.fromUTF8? ⟨bytes.toArray⟩).getD ""

def skipStringBytes : (fuel : Nat) → Reader Unit
  | 0 => fail .endInString
  | fuel + 1 => do
    discard (takeWhile isPlain)
    match ← peek with
    | none => fail .endInString
    | some 34 => skip
    | some 92 =>
      skip
      discard (escape (hexEscape *> pure []))
      skipStringBytes fuel
    | some _ => fail .controlCharacter

def skipString : Reader Unit := do skipStringBytes (← bound)

end FlatAggregate.Json
