import FlatAggregate.Yaml.Source

/-!
# YAML tokens

Tokens are the words and signs of a YAML text. The signs for the start and the end of a block
collection are not written: they stand for changes of the indentation.

A `Token` is a sign or a word with the place where it begins. A `Tag` is kept as octets, because the
escapes in it may spell octets that are no text.
-/

namespace FlatAggregate.Yaml

/-- How a scalar is written; a plain one stands without quotes and on no lines of its own. -/
inductive Style where
  | plain
  /-- In quotes, of either kind. -/
  | quoted
  /-- As lines that are kept. -/
  | literal
  /-- As lines that are joined. -/
  | folded
  deriving DecidableEq, Repr

/-- A tag or a part of one, by its octets: escapes may spell octets that are no text. -/
structure Tag where
  octets : List UInt8
  deriving DecidableEq, Repr

namespace Tag

def ofText (text : String) : Tag := ⟨text.toUTF8.toList⟩

/-- The tag that octets spell. It ends before an octet zero. -/
def ofOctets (octets : List UInt8) : Tag := ⟨octets.takeWhile (· ≠ 0)⟩

instance : Append Tag := ⟨fun stem suffix => ⟨stem.octets ++ suffix.octets⟩⟩

/-- Whether a tag belongs to its text, and not to every text. -/
def isOwn (tag : Tag) : Bool := tag.octets.head? = some '!'.toUInt8

/-- The name that a tag gives if it belongs to its text. A mere exclamation mark is a name. -/
def ownName? (tag : Tag) : Option String :=
  let name := if tag.octets.length = 1 then tag.octets else tag.octets.tail
  if tag.isOwn then String.fromUTF8? ⟨name.toArray⟩ else none

end Tag

inductive TokenKind where
  | streamEnd
  | versionDirective (major minor : Nat)
  | tagDirective (handle : String) (stem : Tag)
  | documentStart
  | documentEnd
  | blockListStart
  | blockRecordStart
  | blockEnd
  | flowListStart
  | flowListEnd
  | flowRecordStart
  | flowRecordEnd
  | blockEntry
  | flowEntry
  | key
  | value
  | reference (name : String)
  | anchor (name : String)
  | tag (handle : String) (suffix : Tag)
  | scalar (text : String) (style : Style)
  deriving DecidableEq, Repr

structure Token where
  kind : TokenKind
  mark : Mark
  deriving DecidableEq, Repr

def Token.next (token : Token) : Mark :=
  { token.mark with column := token.mark.column + 1, width := token.mark.width + 1 }

end FlatAggregate.Yaml
