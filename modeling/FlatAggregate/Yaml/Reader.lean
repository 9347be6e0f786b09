import FlatAggregate.Document.ReadError
import FlatAggregate.Document.Shape
import FlatAggregate.Yaml.Document
import FlatAggregate.Yaml.Scalar

/-!
# Reading YAML text by shape

A reader goes through the events of a document and fails at the first that does not fit. A mismatch
is told with the path to the innermost node that is being read and the place of that node. A
reference is read as the node that it leads to.

Lists and records may be nested 128 deep, and references are followed a hundred times for each event
of the document.

`Surroundings` and `Progress` are the two sides of a reader's state: where it is, and how far it has
come. `text`, `count` and `flag` read scalars, `choice`, `list` and `record` read nodes by shape,
and `value` reads any node, for a member that is kept. What a shape does not ask for is passed over
by `skipNode`. Where nothing is written, a list is empty and a record has no members.
-/

namespace FlatAggregate.Yaml

inductive Failure where
  /-- The document ends before the node does. -/
  | cutOff
  | tooDeep (mark : Mark)
  | tooManyReferences
  /-- What is read does not fit; path and place may not be known yet. -/
  | mismatch (reason : Mismatch) (node : Option (String × Mark))
  deriving Repr

def wording : Wording := ⟨"unit value", .full⟩

/-- A place as it is told; the beginning of the text is not told. -/
def Mark.text (mark : Mark) : String :=
  if mark = {} then ""
  else " at line " ++ toString (mark.line + 1) ++ " column " ++ toString (mark.column + 1)

def Failure.toReadError : Failure → ReadError
  | cutOff => .malformed
  | tooDeep mark => .unfit ("recursion limit exceeded" ++ mark.text)
  | tooManyReferences => .unfit "repetition limit exceeded"
  | mismatch reason none => .unfit (reason.message wording)
  | mismatch reason (some (path, mark)) =>
    .unfit ((if path.isEmpty then "" else path ++ ": ") ++ reason.message wording ++ mark.text)

/-- Where a reader is: the document, the path to the node, and how much deeper it may go. -/
structure Surroundings where
  document : Document
  path : String := ""
  depth : Nat := 128

/-- The position of the next event, and how many references were followed. -/
structure Progress where
  position : Nat := 0
  followed : Nat := 0

abbrev Reader := ReaderT Surroundings (StateT Progress (Except Failure))

namespace Reader

def mismatch {α : Type} (reason : Mismatch) : Reader α := throw (.mismatch reason none)

def lift {α : Type} : Except Mismatch α → Reader α
  | .ok value => pure value
  | .error reason => mismatch reason

def placed {α : Type} (mark : Mark) (reader : Reader α) : Reader α := do
  let path := (← read).path
  tryCatch reader fun
    | .mismatch reason none => throw (.mismatch reason (some (path, mark)))
    | failure => throw failure

def peek : Reader (Event Nat) := do
  match (← read).document[(← get).position]? with
  | some event => pure event
  | none => throw .cutOff

def goTo (position : Nat) : Reader Unit := modify ({ · with position })

def skip : Reader Unit := do goTo ((← get).position + 1)

def follow (target : Nat) : Reader Unit := do
  let followed := (← get).followed + 1
  if 100 * (← read).document.size < followed then throw .tooManyReferences
  set { position := target, followed : Progress }

def node {α : Type} (reader : Event Nat → Reader α) : Reader α := do
  let event ← peek
  skip
  match event.kind with
  | .reference target =>
    let back := (← get).position
    follow target
    let event ← peek
    skip
    let value ← reader event
    goTo back
    return value
  | _ => reader event

def found (event : Event Nat) : Except Mismatch Found :=
  match event.kind with
  | .scalar properties text style => Scalar.found properties text style
  | .listStart _ => .ok .list
  | _ => .ok .record

def refuse {α : Type} (event : Event Nat) (expected : String) : Reader α := do
  mismatch (.type (← lift (found event)) expected)

def textOf (expected : String) (event : Event Nat) : Reader String := placed event.mark do
  match event.kind with
  | .scalar _ text _ => return text
  | _ => refuse event expected

def text : Reader String := node (textOf "a string")

/-- Whether a node stands for no text: it is written plainly, has no tag, and is empty or null. The
tag of null asks for null. -/
def isNone (event : Event Nat) : Except Mismatch Bool :=
  match event.kind with
  | .scalar properties text .plain =>
    match properties.tag with
    | none => .ok (text.isEmpty || Scalar.isNull text)
    | some tag =>
      if tag ≠ Scalar.typeTag "null" then .ok false
      else if Scalar.isNull text then .ok true
      else .error (.value (.text text) "null")
  | _ => .ok false

def optionalText : Reader (Option String) := node fun event => do
  if ← lift (isNone event) then return none
  else some <$> textOf "a string" event

def ownTag? (event : Event Nat) : Option String :=
  match event.kind with
  | .scalar properties _ _ | .listStart properties | .recordStart properties =>
    properties.tag.bind Tag.ownName?
  | _ => none

def variant {α : Type} (variants : List (String × α)) (name : String) : Reader α :=
  match variants.lookup name with
  | some variant => pure variant
  | none => mismatch (.unknownVariant name (variants.map Prod.fst))

def nothing (event : Event Nat) : Reader Unit := placed event.mark do
  match event.kind with
  | .scalar _ text style =>
    if !(style = .plain && (text.isEmpty || Scalar.isNull text)) then
      mismatch (.value (.text text) "null")
  | _ => refuse event "unit"

def choice {α : Type} (variants : List (String × α)) : Reader α := node fun event =>
  match ownTag? event, event.kind with
  | some name, _ => do
    let chosen ← variant variants name
    nothing event
    return chosen
  | none, .scalar _ text _ => placed event.mark (variant variants text)
  | none, _ => placed event.mark (refuse event "a YAML tag starting with '!'")

def nested {α : Type} (mark : Mark) (reader : Reader α) : Reader α := do
  let depth := (← read).depth
  if depth = 0 then throw (.tooDeep mark)
  withReader ({ · with depth := depth - 1 }) reader

def bound : Reader Nat := do return (← read).document.size

def items {α : Type} (item : Reader α) : (fuel number : Nat) → Reader (List α)
  | 0, _ => throw .cutOff
  | fuel + 1, number => do
    if (← peek).kind = .listEnd then
      skip
      return []
    let head ← withReader
      (fun place => { place with path := place.path ++ "[" ++ toString number ++ "]" }) item
    return head :: (← items item fuel (number + 1))

def itemsIn {α : Type} (mark : Mark) (item : Reader α) : Reader (List α) :=
  nested mark do items item (← bound) 0

/-- Reads a list; where nothing is written it is empty. -/
def list {α : Type} (item : Reader α) : Reader (List α) := node fun event =>
  placed event.mark do
    match event.kind with
    | .listStart _ => itemsIn event.mark item
    | .scalar _ "" .plain => return []
    | _ => refuse event "a sequence"

/-- The step of a path from a record to the value of a key. Keys that are not written as scalars are
not told. -/
def step (key : Event Nat) (path : String) : String :=
  (if path.isEmpty then "" else path ++ ".") ++
    match key.kind with
    | .scalar _ text _ => text
    | _ => "?"

def under {α : Type} (key : Event Nat) (reader : Reader α) : Reader α :=
  withReader (fun place => { place with path := step key place.path }) reader

def members (value : Reader Value) : (fuel : Nat) → Reader (List (Value × Value))
  | 0 => throw .cutOff
  | fuel + 1 => do
    let event ← peek
    if event.kind = .recordEnd then
      skip
      return []
    let key ← value
    let content ← under event value
    return (key, content) :: (← members value fuel)

def keptScalar : Found → Reader Value
  | .null => return .null
  | .bool value => return .bool value
  | .integer value => return .integer value
  | .minusZero => return .minusZero
  | .float value => return .float value
  | .text value => return .text value
  | other => mismatch (.type other "any value")

def valueBy (inner : Reader Value) : Reader Value := node fun event =>
  placed event.mark do
    if (ownTag? event).isSome then mismatch .taggedContent
    match event.kind with
    | .scalar properties text style => keptScalar (← lift (Scalar.found properties text style))
    | .listStart _ => .list <$> itemsIn event.mark inner
    | _ => .record <$> nested event.mark do members inner (← bound)

def valueWithin : (levels : Nat) → Reader Value
  -- a collection is refused here before anything in it is read
  | 0 => valueBy (throw .cutOff)
  | levels + 1 => valueBy (valueWithin levels)

def value : Reader Value := do valueWithin (← read).depth

def depthAfter (opened : Nat) (event : Event Nat) : Nat :=
  match event.kind with
  | .listStart _ | .recordStart _ => opened + 1
  | .listEnd | .recordEnd => opened - 1
  | _ => opened

/-- Moves past a node that does not matter, when some collections are open; references are not
followed. -/
def skipNode : (fuel opened : Nat) → Reader Unit
  | 0, _ => throw .cutOff
  | fuel + 1, opened => do
    let event ← peek
    skip
    let opened := depthAfter opened event
    if opened = 0 then return
    skipNode fuel opened

section Records

variable {σ α : Type}

def membersOf (shape : RecordShape Reader σ α) : (fuel : Nat) → (seen : List String) → σ → Reader α
  | 0, _, _ => throw .cutOff
  | fuel + 1, seen, draft => do
    let event ← peek
    if event.kind = .recordEnd then
      skip
      return ← lift (shape.close seen draft)
    let key ← node (textOf "field identifier")
    match shape.field? key, shape.keep with
    | some field, _ =>
      if seen.contains key then mismatch (.duplicateField key)
      membersOf shape fuel (key :: seen) (← under event (field.read draft))
    | none, some keep => membersOf shape fuel seen (keep key (← under event value) draft)
    | none, none =>
      skipNode (← bound) 0
      membersOf shape fuel seen draft

/-- Reads a record; where nothing is written it has no members. -/
def record (shape : RecordShape Reader σ α) (draft : σ) : Reader α := node fun event =>
  placed event.mark do
    match event.kind with
    | .recordStart _ => nested event.mark do membersOf shape (← bound) [] draft
    | .scalar _ "" .plain => lift (shape.close [] draft)
    | _ => refuse event shape.expected

end Records

instance : DocumentReader Reader where
  text := text
  optionalText := optionalText
  choice := choice
  list := list
  record := record

/-- Reads a scalar by `parse`. The scalar is written plainly, or as a literal block with the tag of
the type. -/
def scalar {α : Type} (type expected : String) (parse : String → Option α) : Reader α :=
  node fun event => placed event.mark do
    match event.kind with
    | .scalar properties text style =>
      let fits :=
        style = .plain || style = .literal && properties.tag = some (Scalar.typeTag type)
      match if fits then parse text else none with
      | some value => return value
      | none => refuse event expected
    | _ => refuse event expected

def count? (text : String) : Option Nat :=
  match Scalar.integer? text.toList with
  | some (.ofNat number) =>
    if text.toList.head? ≠ some '-' && number < UInt64.size then some number else none
  | _ => none

def count : Reader Nat := scalar "int" "usize" count?

def flag : Reader Bool := scalar "bool" "a boolean" Scalar.flag?

end Reader

def readText {α : Type} (reader : Reader α) (text : String) : Except ReadError α :=
  match Document.ofText? text with
  | some document => ((reader.run { document }).run' {}).mapError Failure.toReadError
  | none => .error .malformed

def readFile {α : Type} (reader : Reader α) (bytes : Option ByteArray) : Except ReadError α := do
  readText reader (← fileText bytes)

end FlatAggregate.Yaml
