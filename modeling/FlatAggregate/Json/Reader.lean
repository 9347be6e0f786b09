import FlatAggregate.Document.Shape
import FlatAggregate.Json.Token

/-!
# Reading JSON text by shape

A reader takes what its shape asks for and fails at the first thing that does not fit, so a text may
be refused for a mismatch before a fault further on is met. A list or a record is read to its end
before a mismatch inside it gets its place, or as far as the end can be found.

`textOf`, `list`, `choice` and `record` are what shapes are made of, and `value` reads anything, for
a member that is kept. What a shape does not ask for is passed over by `skipValue`, which is less
strict: brackets have to match, but a number may be too large and nesting too deep. `readText` reads
a whole text.
-/

namespace FlatAggregate.Json

open Reader

/-- Refuses the value at the cursor, which is no `expected`. A word, a number or a string is read to
its end; a list or a record is left alone. -/
def refuse {α : Type} (expected : String) : Reader α := placed do
  match ← peek with
  | some 110 => skip; word "ull".toUTF8.toList; mismatch (.type .null expected)
  | some 116 => skip; word "rue".toUTF8.toList; mismatch (.type (.bool true) expected)
  | some 102 => skip; word "alse".toUTF8.toList; mismatch (.type (.bool false) expected)
  | some 45 => skip; mismatch (.type (← number true).toValue.found expected)
  | some 34 => skip; mismatch (.type (.text (← string)) expected)
  | some 91 => mismatch (.type .list expected)
  | some 123 => mismatch (.type .record expected)
  | some byte =>
    if isDigit byte then mismatch (.type (← number false).toValue.found expected)
    else failNext .expectedValue
  | none => failNext .expectedValue

def peekStart : Reader UInt8 := do
  match ← peekValue with
  | some byte => pure byte
  | none => failNext .endInValue

def textOf (expected : String) : Reader String := do
  if (← peekStart) = 34 then
    skip
    string
  else refuse expected

def optionalText : Reader (Option String) := do
  if (← peekValue) = some 110 then
    skip
    word "ull".toUTF8.toList
    return none
  else some <$> textOf "a string"

def hasItem (first : Bool) : Reader Bool := do
  match ← peekValue with
  | none => failNext .endInList
  | some 93 => return false
  | some byte =>
    if first then return true
    else if byte = 44 then
      skip
      match ← peekValue with
      | some 93 => failNext .trailingComma
      | some _ => return true
      | none => failNext .endInValue
    else failNext .expectedListEnd

def endList : Reader Unit := do
  match ← peekValue with
  | some 93 => skip
  | some 44 =>
    skip
    match ← peekValue with
    | some 93 => failNext .trailingComma
    | _ => failNext .trailingCharacters
  | some _ => failNext .trailingCharacters
  | none => failNext .endInList

def nextKey (first : Bool) : Reader (Option String) := do
  match ← peekValue with
  | none => failNext .endInObject
  | some 125 => return none
  | some byte =>
    if first then
      if byte ≠ 34 then failNext .keyNotText
    else if byte = 44 then
      skip
      match ← peekValue with
      | some 34 => pure ()
      | some 125 => failNext .trailingComma
      | some _ => failNext .keyNotText
      | none => failNext .endInValue
    else failNext .expectedObjectEnd
    skip
    some <$> string

def colon : Reader Unit := do
  match ← peekValue with
  | some 58 => skip
  | some _ => failNext .expectedColon
  | none => failNext .endInObject

def endRecord : Reader Unit := do
  match ← peekValue with
  | some 125 => skip
  | some 44 => failNext .trailingComma
  | some _ => failNext .trailingCharacters
  | none => failNext .endInObject

def items {α : Type} (item : Reader α) : (fuel : Nat) → (first : Bool) → Reader (List α)
  | 0, _ => pure []
  | fuel + 1, first => do
    if ← hasItem first then
      let head ← item
      return head :: (← items item fuel false)
    else return []

def list {α : Type} (item : Reader α) : Reader (List α) := placed do
  if (← peekStart) = 91 then
    closedBy (nested do skip; items item (← bound) true) endList
  else refuse "a sequence"

inductive Bracket where
  | list
  | record
  deriving DecidableEq, Repr

def skipKey : Reader Unit := do
  match ← peekValue with
  | some 34 => skip
  | some _ => failNext .keyNotText
  | none => failNext .endInObject
  skipString
  colon

/-- Closes brackets up to the next comma or, if `comma` cannot stand here, up to the start of a
value. Gives the brackets that stay open; none when the value is at its end. -/
def closeBrackets : (fuel : Nat) → (comma : Bool) → List Bracket → Reader (List Bracket)
  | 0, _, _ => pure []
  | _, _, [] => pure []
  | fuel + 1, comma, bracket :: outer => do
    match ← peekValue, bracket with
    | some 93, .list => skip; closeBrackets fuel true outer
    | some 125, .record => skip; closeBrackets fuel true outer
    | some byte, _ =>
      if !comma then return bracket :: outer
      else if byte = 44 then
        skip
        return bracket :: outer
      else
        match bracket with
        | .list => failNext .expectedListEnd
        | .record => failNext .expectedObjectEnd
    | none, .list => failNext .endInList
    | none, .record => failNext .endInObject

/-- Moves past a value that does not matter, inside open brackets. Its numbers may be too large, and
its nesting too deep, for a value that does. -/
def skipValueIn : (fuel : Nat) → List Bracket → Reader Unit
  | 0, _ => pure ()
  | fuel + 1, brackets => do
    let byte ← peekStart
    let (comma, brackets) ←
      match byte with
      | 110 => skip; word "ull".toUTF8.toList; pure (true, brackets)
      | 116 => skip; word "rue".toUTF8.toList; pure (true, brackets)
      | 102 => skip; word "alse".toUTF8.toList; pure (true, brackets)
      | 45 => skip; skipNumber; pure (true, brackets)
      | 34 => skip; skipString; pure (true, brackets)
      | 91 => skip; pure (false, .list :: brackets)
      | 123 => skip; pure (false, .record :: brackets)
      | byte =>
        if isDigit byte then skipNumber; pure (true, brackets)
        else failNext .expectedValue
    match ← closeBrackets (← bound) comma brackets with
    | [] => pure ()
    | open_ =>
      if open_.head? = some .record then skipKey
      skipValueIn fuel open_

def skipValue : Reader Unit := do skipValueIn (← bound) []

def members (value : Reader Value) :
    (fuel : Nat) → (first : Bool) → Reader (List (Value × Value))
  | 0, _ => pure []
  | fuel + 1, first => do
    match ← nextKey first with
    | none => return []
    | some key =>
      colon
      let content ← value
      return (.text key, content) :: (← members value fuel false)

def valueWithin : (levels : Nat) → Reader Value
  | 0 => failNext .tooDeep
  | levels + 1 => placed do
    match ← peekStart with
    | 110 => skip; word "ull".toUTF8.toList; return .null
    | 116 => skip; word "rue".toUTF8.toList; return .bool true
    | 102 => skip; word "alse".toUTF8.toList; return .bool false
    | 45 => skip; return (← number true).toValue
    | 34 => skip; return .text (← string)
    | 91 =>
      closedBy (nested do skip; return .list (← items (valueWithin levels) (← bound) true)) endList
    | 123 =>
      closedBy
        (nested do skip; return .record (← members (valueWithin levels) (← bound) true)) endRecord
    | byte =>
      if isDigit byte then return (← number false).toValue
      else failNext .expectedValue

def value : Reader Value := do valueWithin (← get).depth

def variant {α : Type} (variants : List (String × α)) : Reader α := placed do
  let name ← textOf "variant identifier"
  match variants.lookup name with
  | some variant => pure variant
  | none => mismatch (.unknownVariant name (variants.map Prod.fst))

def toOnlyKey : Reader Unit := do
  match ← peekValue with
  | some 34 => pure ()
  | some 125 => failNext .expectedValue
  | some _ => failNext .keyNotText
  | none => failNext .endInObject

def choice {α : Type} (variants : List (String × α)) : Reader α := do
  match ← peekStart with
  | 123 =>
    let chosen ← nested do
      skip
      toOnlyKey
      let chosen ← variant variants
      colon
      if (← peekStart) = 110 then
        skip
        word "ull".toUTF8.toList
        pure chosen
      else refuse "unit"
    match ← peekValue with
    | some 125 => skip; pure chosen
    | some _ => fail .expectedValue
    | none => fail .endInObject
  | 34 => variant variants
  | _ => failNext .expectedValue

section Records

variable {σ α : Type}

def membersOf (shape : RecordShape Reader σ α) :
    (fuel : Nat) → (seen : List String) → (first : Bool) → σ → Reader α
  | 0, seen, _, draft => lift (shape.close seen draft)
  | fuel + 1, seen, first, draft => do
    match ← nextKey first with
    | none => lift (shape.close seen draft)
    | some key =>
      match shape.field? key, shape.keep with
      | some field, _ =>
        if seen.contains key then mismatch (.duplicateField key)
        else
          colon
          membersOf shape fuel (key :: seen) false (← field.read draft)
      | none, some keep =>
        colon
        membersOf shape fuel seen false (keep key (← value) draft)
      | none, none =>
        colon
        skipValue
        membersOf shape fuel seen false draft

def fieldsOf : List (Field Reader σ) → (first : Bool) → σ → Reader (σ × Nat)
  | [], _, draft => pure (draft, 0)
  | field :: rest, first, draft => do
    if ← hasItem first then
      let (draft, count) ← fieldsOf rest false (← field.read draft)
      return (draft, count + 1)
    else return (draft, 0)

def record (shape : RecordShape Reader σ α) (draft : σ) : Reader α := placed do
  let byte ← peekStart
  if byte = 123 then
    closedBy (nested do skip; membersOf shape (← bound) [] true draft) endRecord
  else if byte = 91 && shape.keep.isNone then
    closedBy
      (nested do
        skip
        let (draft, count) ← fieldsOf shape.fields true draft
        lift (shape.closeList count draft))
      endList
  else refuse shape.expected

end Records

instance : DocumentReader Reader where
  text := textOf "a string"
  optionalText := optionalText
  choice := choice
  list := list
  record := record

/-- Reads a whole text: after the value there are only blanks. -/
def readText {α : Type} (reader : Reader α) (text : String) : Except String α :=
  let bytes := text.toUTF8.toList
  let whole : Reader α := do
    let value ← reader
    if (← peekValue).isSome then failNext .trailingCharacters
    return value
  match whole { rest := bytes } with
  | .ok value _ => .ok value
  | .error error _ => .error (error.message bytes)

def valueOfText (text : String) : Except String Value := readText value text

end FlatAggregate.Json
