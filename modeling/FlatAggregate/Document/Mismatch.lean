import FlatAggregate.Decimal.Shortest
import FlatAggregate.Document.Value
import FlatAggregate.Text.Quoted

/-!
# Mismatches

A mismatch tells how a readable document fails to be what was asked for. The formats share the
causes and the wording but for two details, the word for null and the layout of decimals.

`Found` is what stands where something else is expected, as far as messages tell it apart. A
`Wording` describes it in the words of a format; doubles are described by their shortest decimals,
and those that are no numbers by name. `choiceText` lists the names among which one had to be taken.
-/

namespace FlatAggregate

inductive Found where
  | null
  | bool (value : Bool)
  | integer (value : Int)
  /-- Zero with a minus sign. -/
  | minusZero
  /-- An integer beyond 64 bits. -/
  | wideInteger (value : Int)
  | float (value : Float)
  | text (value : String)
  | list
  | record
  deriving Repr

def Value.found : Value → Found
  | null => .null
  | bool value => .bool value
  | integer value => .integer value
  | minusZero => .minusZero
  | float value => .float value
  | text value => .text value
  | list _ => .list
  | record _ => .record

structure Wording where
  null : String
  decimals : Decimal.Layout
  deriving Repr

/-- The text of a double: its shortest decimal, or the name of what is no number. -/
def Wording.floatText (wording : Wording) (value : Float) : String :=
  match Decimal.Binary.ofFloat? value with
  | some binary => Decimal.text wording.decimals binary
  | none => if value.isNaN then "NaN" else if value < 0 then "-inf" else "inf"

def Found.describe (wording : Wording) : Found → String
  | null => wording.null
  | bool value => "boolean \x60" ++ toString value ++ "\x60"
  | integer value => "integer \x60" ++ toString value ++ "\x60"
  | minusZero => "integer \x600\x60"
  | wideInteger value =>
    "integer \x60" ++ toString value ++ "\x60 as " ++ if value < 0 then "i128" else "u128"
  | float value => "floating point \x60" ++ wording.floatText value ++ "\x60"
  | text value => "string " ++ Text.quoted value
  | list => "sequence"
  | record => "map"

inductive Mismatch where
  | type (found : Found) (expected : String)
  | value (found : Found) (expected : String)
  | length (count : Nat) (expected : String)
  | missingField (name : String)
  | duplicateField (name : String)
  | unknownVariant (name : String) (variants : List String)
  /-- A tagged value where a plain one is kept for later. -/
  | taggedContent
  deriving Repr

def choiceText : List String → String
  | [] => "there are no variants"
  | [only] => "expected \x60" ++ only ++ "\x60"
  | [first, second] => "expected \x60" ++ first ++ "\x60 or \x60" ++ second ++ "\x60"
  | names => "expected one of " ++ ", ".intercalate (names.map fun name => "\x60" ++ name ++ "\x60")

def Mismatch.message (wording : Wording) : Mismatch → String
  | type found expected => "invalid type: " ++ found.describe wording ++ ", expected " ++ expected
  | value found expected => "invalid value: " ++ found.describe wording ++ ", expected " ++ expected
  | length count expected => "invalid length " ++ toString count ++ ", expected " ++ expected
  | missingField name => "missing field \x60" ++ name ++ "\x60"
  | duplicateField name => "duplicate field \x60" ++ name ++ "\x60"
  | unknownVariant name variants =>
    "unknown variant \x60" ++ name ++ "\x60, " ++ choiceText variants
  | taggedContent => "untagged and internally tagged enums do not support enum input"

end FlatAggregate
