import FlatAggregate.Document.Mismatch

/-!
# Cursors on JSON text

A cursor stands between two bytes of a JSON text. Reading moves it, and what goes wrong is told with
the place where the cursor stands, or with the place after the byte that it looks at. A mismatch is
placed only when the reader of the surrounding value has come to its end, so an error may be without
a place for a while. Reading goes on from where a failed reader stopped.

A `Fault` makes a text unreadable, whatever is asked for; a `Mismatch` says that it is something
else than what was asked for. An `Error` is either of these, with the number of bytes before its
place once that is known. `linePosition` turns the number into the line and the column that messages
tell.

`peek`, `skip`, `next` and `takeWhile` move along the bytes, `fail` and `failNext` fail at the
cursor or behind the next byte, and `nested` counts the levels of lists and records: at most as many
may be open as the cursor has left.
-/

namespace FlatAggregate.Json

inductive Fault where
  | endInList
  | endInObject
  | endInString
  | endInValue
  | expectedColon
  | expectedListEnd
  | expectedObjectEnd
  | expectedIdent
  | expectedValue
  | invalidEscape
  | invalidNumber
  | numberOutOfRange
  | controlCharacter
  | keyNotText
  | loneSurrogate
  | trailingComma
  | trailingCharacters
  | endOfHexEscape
  | tooDeep
  deriving DecidableEq, Repr

def Fault.message : Fault → String
  | endInList => "EOF while parsing a list"
  | endInObject => "EOF while parsing an object"
  | endInString => "EOF while parsing a string"
  | endInValue => "EOF while parsing a value"
  | expectedColon => "expected \x60:\x60"
  | expectedListEnd => "expected \x60,\x60 or \x60]\x60"
  | expectedObjectEnd => "expected \x60,\x60 or \x60\x7d\x60"
  | expectedIdent => "expected ident"
  | expectedValue => "expected value"
  | invalidEscape => "invalid escape"
  | invalidNumber => "invalid number"
  | numberOutOfRange => "number out of range"
  | controlCharacter =>
    "control character (\\u0000-\\u001F) found while parsing a string"
  | keyNotText => "key must be a string"
  | loneSurrogate => "lone leading surrogate in hex escape"
  | trailingComma => "trailing comma"
  | trailingCharacters => "trailing characters"
  | endOfHexEscape => "unexpected end of hex escape"
  | tooDeep => "recursion limit exceeded"

inductive Cause where
  | fault (fault : Fault)
  | mismatch (mismatch : Mismatch)
  deriving Repr

structure Error where
  cause : Cause
  offset : Option Nat
  deriving Repr

def wording : Wording := ⟨"null", .compact⟩

/-- The line of a place and its column in bytes; lines count from one, and a newline ends its
line. -/
def linePosition (text : List UInt8) (offset : Nat) : Nat × Nat :=
  (text.take offset).foldl (fun ((line, column) : Nat × Nat) (byte : UInt8) =>
    if byte = 10 then (line + 1, 0) else (line, column + 1)) (1, 0)

def Error.message (text : List UInt8) (error : Error) : String :=
  let what :=
    match error.cause with
    | .fault fault => fault.message
    | .mismatch mismatch => mismatch.message wording
  match error.offset with
  | none => what
  | some offset =>
    let (line, column) := linePosition text offset
    what ++ " at line " ++ toString line ++ " column " ++ toString column

/-- The bytes that are left, how many were read, and how many levels of nesting are left. -/
structure Cursor where
  rest : List UInt8
  offset : Nat := 0
  depth : Nat := 128
  deriving Repr

/-- Reading moves the cursor, also when it fails. -/
abbrev Reader := EStateM Error Cursor

namespace Reader

def fail {α : Type} (fault : Fault) : Reader α := fun cursor =>
  .error ⟨.fault fault, some cursor.offset⟩ cursor

def failNext {α : Type} (fault : Fault) : Reader α := fun cursor =>
  .error ⟨.fault fault, some (if cursor.rest.isEmpty then cursor.offset else cursor.offset + 1)⟩
    cursor

def mismatch {α : Type} (mismatch : Mismatch) : Reader α :=
  throw ⟨.mismatch mismatch, none⟩

def lift {α : Type} : Except Mismatch α → Reader α
  | .ok value => pure value
  | .error reason => mismatch reason

/-- Places an error that has no place yet at the cursor. -/
def placed {α : Type} (reader : Reader α) : Reader α := fun cursor =>
  match reader cursor with
  | .error ⟨cause, none⟩ after => .error ⟨cause, some after.offset⟩ after
  | result => result

/-- Reads on with `close` whether `body` failed or not; the first failure counts. -/
def closedBy {α : Type} (body : Reader α) (close : Reader Unit) : Reader α := fun cursor =>
  match body cursor with
  | .ok value after => (close *> pure value) after
  | .error reason after =>
    match close after with
    | .ok _ last => .error reason last
    | .error _ last => .error reason last

def peek : Reader (Option UInt8) := fun cursor => .ok cursor.rest.head? cursor

def skip : Reader Unit := fun cursor =>
  match cursor.rest with
  | [] => .ok () cursor
  | _ :: rest => .ok () { cursor with rest, offset := cursor.offset + 1 }

def next : Reader (Option UInt8) := peek <* skip

def takeWhile (p : UInt8 → Bool) : Reader (List UInt8) := fun cursor =>
  let taken := cursor.rest.takeWhile p
  .ok taken { cursor with
    rest := cursor.rest.drop taken.length, offset := cursor.offset + taken.length }

def isBlank (byte : UInt8) : Bool := byte = 32 || byte = 10 || byte = 9 || byte = 13

def peekValue : Reader (Option UInt8) := takeWhile isBlank *> peek

/-- A bound for loops whose steps move past a byte each. -/
def bound : Reader Nat := fun cursor => .ok (cursor.rest.length + 1) cursor

def nested {α : Type} (reader : Reader α) : Reader α := fun cursor =>
  if cursor.depth ≤ 1 then failNext .tooDeep cursor
  else
    match reader { cursor with depth := cursor.depth - 1 } with
    | .ok value after => .ok value { after with depth := cursor.depth }
    | .error reason after => .error reason { after with depth := cursor.depth }

end Reader

end FlatAggregate.Json
