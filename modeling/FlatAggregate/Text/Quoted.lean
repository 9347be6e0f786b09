import FlatAggregate.Text.Printable

/-!
# Quoted text

A text between double quotes in which every character can be told apart: the quote, the backslash
and the usual controls have short escapes, and a character that cannot be shown alone is written by
its code point.

Shown alone can be what is printable and does not combine with the character before it. The code
point is written in hexadecimal digits, in lower case.
-/

namespace FlatAggregate.Text

def hexDigits (n : Nat) : String := String.ofList (Nat.toDigits 16 n)

def escaped (c : Char) : String :=
  match c with
  | '\x00' => "\\0"
  | '\t' => "\\t"
  | '\n' => "\\n"
  | '\r' => "\\r"
  | '"' => "\\\""
  | '\\' => "\\\\"
  | c => if isPrintable c && !isExtending c then c.toString
         else "\\u\x7b" ++ hexDigits c.toNat ++ "\x7d"

def quoted (text : String) : String :=
  "\"" ++ String.join (text.toList.map escaped) ++ "\""

end FlatAggregate.Text
