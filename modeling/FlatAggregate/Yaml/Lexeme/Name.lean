import FlatAggregate.Yaml.Cursor
import FlatAggregate.Yaml.Token

/-!
# Names in YAML text

Anchors, tags and directives. A tag is a handle and a suffix: a directive may let a handle stand for
the beginning of many tags. A tag in angle brackets and the tag that is a mere exclamation mark have
the empty handle.

Tags are read as octets, since an escape gives one octet and several of them make up a character.
`tag` reads a tag of a node, and `directive` a directive with its line, which declares the version
or a handle; no other directive is known.
-/

namespace FlatAggregate.Yaml.Lexing

def anchorName : Lexing String := do
  let name ← takeWhile isNameChar
  let after ← rest
  let ends := startsGap after || after.head?.any ("?:,]\x7d%@\x60".toList.contains ·)
  require (!name.isEmpty && ends)
  return String.ofList name

/-- Whether a character can stand in a tag; brackets and commas only where they cannot be meant as
signs of a flow collection. -/
def isTagChar (bracketed : Bool) (c : Char) : Bool :=
  isNameChar c || ";/?:@&=+$.%!~*'()".toList.contains c ||
    bracketed && (c = ',' || c = '[' || c = ']')

def octet : Lexing Nat := do
  match ← rest with
  | '%' :: high :: low :: _ =>
    match hexNumber? [high, low] with
    | some value => skip 3; return value
    | none => failure
  | _ => failure

def laterOctets : (count : Nat) → Lexing (List UInt8)
  | 0 => pure []
  | count + 1 => do
    let value ← octet
    require (0x80 ≤ value && value < 0xc0)
    return value.toUInt8 :: (← laterOctets count)

/-- Reads the octets of one character; the first tells how many follow. -/
def octets : Lexing (List UInt8) := do
  let first ← octet
  let later ←
    if first < 0x80 then pure 0
    else if first < 0xc0 then failure
    else if first < 0xe0 then pure 1
    else if first < 0xf0 then pure 2
    else if first < 0xf8 then pure 3
    else failure
  return first.toUInt8 :: (← laterOctets later)

def tagOctets (bracketed : Bool) : (fuel : Nat) → Lexing (List UInt8)
  | 0 => pure []
  | fuel + 1 => do
    match ← peek with
    | some '%' => return (← octets) ++ (← tagOctets bracketed fuel)
    | some c =>
      if isTagChar bracketed c then
        skip 1
        return c.toUInt8 :: (← tagOctets bracketed fuel)
      else return []
    | none => return []

/-- Reads a part of a tag. Something has to be written there unless it may be empty. -/
def tagPart (bracketed mayBeEmpty : Bool) : Lexing Tag := do
  let octets ← tagOctets bracketed (← bound)
  require (mayBeEmpty || !octets.isEmpty)
  return .ofOctets octets

def tag (flow : Bool) : Lexing TokenKind := do
  expect '!'
  let kind ← do
    if ← sees (· = '<') then
      skip 1
      let tag ← tagPart true false
      expect '>'
      pure (.tag "" tag)
    else
      let name := String.ofList (← takeWhile isNameChar)
      if ← sees (· = '!') then
        skip 1
        pure (.tag ("!" ++ name ++ "!") (← tagPart false false))
      else
        let suffix := Tag.ofText name ++ (← tagPart false true)
        pure (if suffix.octets.isEmpty then .tag "" (.ofText "!") else .tag "!" suffix)
  require (startsGap (← rest) || flow && (← sees (· = ',')))
  return kind

def versionNumber : Lexing Nat := do
  let digits ← takeWhile Char.isDigit
  require (!digits.isEmpty && digits.length ≤ 9)
  return digits.foldl (fun number c => 10 * number + (c.toNat - '0'.toNat)) 0

def version : Lexing TokenKind := do
  discard (takeWhile isBlank)
  let major ← versionNumber
  expect '.'
  return .versionDirective major (← versionNumber)

def handle : Lexing TokenKind := do
  discard (takeWhile isBlank)
  expect '!'
  let name := String.ofList (← takeWhile isNameChar)
  let closed ← sees (· = '!')
  if closed then skip 1
  require (closed || name.isEmpty)
  require (← sees isBlank)
  discard (takeWhile isBlank)
  let stem ← tagPart true false
  require (startsGap (← rest))
  return .tagDirective (if closed then "!" ++ name ++ "!" else "!") stem

def directive : Lexing TokenKind := do
  expect '%'
  let name := String.ofList (← takeWhile isNameChar)
  require (startsGap (← rest))
  let kind ←
    if name = "YAML" then version
    else if name = "TAG" then handle
    else failure
  endLine
  return kind

end FlatAggregate.Yaml.Lexing
