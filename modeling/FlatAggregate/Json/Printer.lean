import FlatAggregate.Document.Mismatch
import FlatAggregate.Json.Cursor

/-!
# Writing JSON text

A value on one line, without blanks. A key that is no text is written as the text of its value.

A string is written with short escapes for the quote, the backslash and the usual controls, and by
number for the other controls; everything else stands for itself.
-/

namespace FlatAggregate.Json

def escapedChar (c : Char) : String :=
  match c with
  | '"' => "\\\""
  | '\\' => "\\\\"
  | '\n' => "\\n"
  | '\r' => "\\r"
  | '\t' => "\\t"
  | c =>
    if c.toNat < 32 then
      let digits := Nat.toDigits 16 c.toNat
      "\\u" ++ String.ofList (List.replicate (4 - digits.length) '0' ++ digits)
    else c.toString

def quoted (text : String) : String :=
  "\"" ++ String.join (text.toList.map escapedChar) ++ "\""

mutual

def print : Value → String
  | .null => "null"
  | .bool value => toString value
  | .integer value => toString value
  | .minusZero => "-0"
  | .float value => wording.floatText value
  | .text value => quoted value
  | .list items => "[" ++ ",".intercalate (printAll items) ++ "]"
  | .record members => "\x7b" ++ ",".intercalate (printMembers members) ++ "\x7d"

def printAll : List Value → List String
  | [] => []
  | value :: rest => print value :: printAll rest

def printMembers : List (Value × Value) → List String
  | [] => []
  | (.text name, value) :: rest => (quoted name ++ ":" ++ print value) :: printMembers rest
  | (key, value) :: rest => (quoted (print key) ++ ":" ++ print value) :: printMembers rest

end

end FlatAggregate.Json
