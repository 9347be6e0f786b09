/-!
# YAML source text

A source is the list of the characters of a YAML text. The line breaks (carriage return, line feed,
both together, next line) are all one character in it. The separators of lines and paragraphs break
lines too, and stay what they are. A byte order mark stays as well and takes up a column.

`Mark` is a place in a source, counted in lines and in characters, and in bytes within its line.
`source?` makes the source of a text, unless a character in it may not stand in YAML at all.
-/

namespace FlatAggregate.Yaml

structure Mark where
  /-- How many line breaks stand before it. -/
  line : Nat := 0
  /-- How many characters of its line stand before it. -/
  column : Nat := 0
  /-- How many bytes these characters take up. -/
  width : Nat := 0
  deriving DecidableEq, Repr

def isAllowed (c : Char) : Bool :=
  let code := c.toNat
  code = 0x09 || code = 0x0a || code = 0x0d || (0x20 ≤ code && code ≤ 0x7e) || code = 0x85 ||
    (0xa0 ≤ code && code ≤ 0xfffd) || 0x10000 ≤ code

def byteOrderMark : Char := '\ufeff'

def isBreak (c : Char) : Bool :=
  c = '\n' || c = '\u2028' || c = '\u2029'

def isBlank (c : Char) : Bool := c = ' ' || c = '\t'

def isGap (c : Char) : Bool := isBlank c || isBreak c

def isNameChar (c : Char) : Bool := c.isAlphanum || c = '_' || c = '-'

/-- Whether a source begins with something that ends a word, its own end included. -/
def startsGap : List Char → Bool
  | [] => true
  | c :: _ => isGap c

def startsDocumentLine : List Char → Bool
  | '-' :: '-' :: '-' :: rest => startsGap rest
  | '.' :: '.' :: '.' :: rest => startsGap rest
  | _ => false

def Mark.after (mark : Mark) (c : Char) : Mark :=
  if isBreak c then { line := mark.line + 1 }
  else { mark with column := mark.column + 1, width := mark.width + c.utf8Size }

def unifyBreaks : List Char → List Char
  | '\r' :: '\n' :: rest => '\n' :: unifyBreaks rest
  | c :: rest => (if c = '\r' || c = '\u0085' then '\n' else c) :: unifyBreaks rest
  | [] => []

def source? (text : String) : Option (List Char) :=
  if text.toList.all isAllowed then some (unifyBreaks text.toList) else none

end FlatAggregate.Yaml
