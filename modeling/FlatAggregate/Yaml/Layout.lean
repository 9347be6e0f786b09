import FlatAggregate.Yaml.Lexeme.Block
import FlatAggregate.Yaml.Lexeme.Flow
import FlatAggregate.Yaml.Lexeme.Name

/-!
# The layout of YAML text

The layout of a text gives its tokens. Outside of flow collections the columns of the words count:
a word further right than the collection around it opens a collection, and one further left closes
those that are open to its right.

That a word is a key shows only when a colon follows it on its line. Until then it is remembered as
a possible key, one for each flow collection that is open. When the colon comes, the tokens for the
key and for a record that it opens are put before those that have been read since.

`Layout` holds the tokens read so far, the latest first, and what is open. `fetch` reads the next
token: `toToken` moves to it past blanks and comments, stale keys are dropped, and the character at
the cursor tells which sign or word begins there. Signs of collections go through `openBlockHere`,
`openFlow` and `closeFlow`, words through `word`, which notes that a key may begin there. `tokens?`
reads a whole source.
-/

namespace FlatAggregate.Yaml

/-- A token that may be the first of a key; if the key is required, nothing else can stand there. -/
structure PossibleKey where
  /-- How many tokens come before. -/
  number : Nat
  /-- Where it begins. -/
  mark : Mark
  required : Bool
  deriving Repr

/-- A key is on one line and has at most 1024 bytes. -/
def PossibleKey.isStale (key : PossibleKey) (mark : Mark) : Bool :=
  key.mark.line < mark.line || key.mark.width + 1024 < mark.width

structure Layout where
  cursor : Cursor
  /-- The tokens, the latest first. -/
  read : List Token := []
  /-- How many tokens there are. -/
  count : Nat := 0
  /-- The columns of the open block collections, the innermost first. -/
  columns : List Nat := []
  /-- The possible key of each open flow collection and of the text around them, the innermost
  first. -/
  keys : List (Option PossibleKey) := [none]
  /-- Whether a key may start at the cursor. -/
  keyAllowed : Bool := true
  deriving Repr

namespace Layout

def inFlow (layout : Layout) : Bool := 1 < layout.keys.length

def leastColumn (layout : Layout) : Nat := (layout.columns.head?.map (· + 1)).getD 0

def push (layout : Layout) (token : Token) : Layout :=
  { layout with read := token :: layout.read, count := layout.count + 1 }

def insert (layout : Layout) (number : Nat) (token : Token) : Layout :=
  let later := layout.count - number
  { layout with
    read := layout.read.take later ++ token :: layout.read.drop later
    count := layout.count + 1 }

/-- Opens a block collection at a column right of those that are open. Its token is put after the
first `number` tokens. -/
def openBlock (layout : Layout) (kind : TokenKind) (number : Nat) (mark : Mark) : Layout :=
  if layout.inFlow || mark.column < layout.leastColumn then layout
  else { layout with columns := mark.column :: layout.columns }.insert number ⟨kind, mark⟩

/-- Closes the block collections that are open right of `column`, or all of them. -/
def closeBlocks (layout : Layout) (column : Option Nat) : Layout :=
  if layout.inFlow then layout
  else
    let (closed, kept) := layout.columns.span fun block => column.all (· < block)
    { layout with
      columns := kept
      read := closed.map (fun _ => ⟨.blockEnd, layout.cursor.mark⟩) ++ layout.read
      count := layout.count + closed.length }

end Layout

abbrev Placing := StateT Layout Option

namespace Placing

def lex {α : Type} (lexing : Lexing α) : Placing α := do
  let (value, cursor) ← lexing (← get).cursor
  modify ({ · with cursor })
  return value

/-- Drops the possible key of the innermost collection, which must not be a required one. -/
def dropKey : Placing Unit := do
  match (← get).keys with
  | [] => pure ()
  | key :: outer =>
    if key.any (·.required) then failure
    modify ({ · with keys := none :: outer })

def dropStaleKeys : Placing Unit := do
  let layout ← get
  let keys ← layout.keys.mapM fun key =>
    if key.any (·.isStale layout.cursor.mark) then
      if key.any (·.required) then failure else pure none
    else pure key
  set { layout with keys }

def markKey : Placing Unit := do
  if (← get).keyAllowed then
    dropKey
    modify fun layout =>
      let mark := layout.cursor.mark
      let required := !layout.inFlow && layout.columns.head? = some mark.column
      { layout with keys := some ⟨layout.count, mark, required⟩ :: layout.keys.tail }

def allowKey (allowed : Bool) : Placing Unit := modify ({ · with keyAllowed := allowed })

def token (lexing : Lexing TokenKind) : Placing Unit := do
  let mark := (← get).cursor.mark
  let kind ← lex lexing
  modify (·.push ⟨kind, mark⟩)

def sign (kind : TokenKind) (length : Nat) : Placing Unit := token (Lexing.skip length *> pure kind)

/-- Moves past blanks, comments and line breaks from a mark on, and past a byte order mark that
starts a line. Outside of flow collections a key may start on a new line, and no tab may stand where
one may. -/
def passGap (flow : Bool) : (allowed comment : Bool) → Mark → List Char → Bool × Cursor
  | allowed, _, mark, [] => (allowed, ⟨[], mark⟩)
  | allowed, comment, mark, c :: rest =>
    if isBreak c then passGap flow (allowed || !flow) false (mark.after c) rest
    else if comment || c = '#' then passGap flow allowed true (mark.after c) rest
    else if c = ' ' || c = '\t' && (flow || !allowed) || c = byteOrderMark && mark.column = 0 then
      passGap flow allowed false (mark.after c) rest
    else (allowed, ⟨c :: rest, mark⟩)

def toToken : Placing Unit := modify fun layout =>
  let (keyAllowed, cursor) :=
    passGap layout.inFlow layout.keyAllowed false layout.cursor.mark layout.cursor.rest
  { layout with keyAllowed, cursor }

def endStream : Placing Unit := do
  modify fun layout =>
    let mark := layout.cursor.mark
    { layout with
      cursor.mark := if mark.column = 0 then mark else { line := mark.line + 1 } }
  modify (·.closeBlocks none)
  dropKey
  allowKey false
  sign .streamEnd 0

def leaveDocument : Placing Unit := do
  modify (·.closeBlocks none)
  dropKey
  allowKey false

def openFlow (kind : TokenKind) : Placing Unit := do
  markKey
  modify fun layout => { layout with keys := none :: layout.keys }
  allowKey true
  sign kind 1

def closeFlow (kind : TokenKind) : Placing Unit := do
  dropKey
  modify fun layout => if layout.inFlow then { layout with keys := layout.keys.tail } else layout
  allowKey false
  sign kind 1

/-- Opens a block collection for the sign at the cursor; one must be allowed to start there. -/
def openBlockHere (kind : TokenKind) : Placing Unit := do
  let layout ← get
  if !layout.inFlow then
    if !layout.keyAllowed then failure
    set (layout.openBlock kind layout.count layout.cursor.mark)

def blockEntry : Placing Unit := do
  openBlockHere .blockListStart
  dropKey
  allowKey true
  sign .blockEntry 1

def explicitKey : Placing Unit := do
  openBlockHere .blockRecordStart
  dropKey
  allowKey !(← get).inFlow
  sign .key 1

/-- Reads the colon of a value. A possible key before it is one. -/
def value : Placing Unit := do
  let layout ← get
  match layout.keys.head?.join with
  | some key =>
    set ((layout.insert key.number ⟨.key, key.mark⟩).openBlock
      .blockRecordStart key.number key.mark)
    modify fun layout => { layout with keys := none :: layout.keys.tail }
    allowKey false
  | none =>
    openBlockHere .blockRecordStart
    allowKey !layout.inFlow
  sign .value 1

def word (lexing : Lexing TokenKind) : Placing Unit := do
  markKey
  allowKey false
  token lexing

def plainScalar : Placing Unit := do
  markKey
  allowKey false
  let layout ← get
  let mark := layout.cursor.mark
  let (kind, broken) ← lex (Lexing.plain layout.inFlow layout.leastColumn)
  modify (·.push ⟨kind, mark⟩)
  if broken then allowKey true

def blockScalar (style : Style) : Placing Unit := do
  dropKey
  allowKey true
  token (Lexing.block style (← get).leastColumn)

/-- Whether a source begins with a plain scalar, when it begins with none of the signs that always
stand for themselves. -/
def startsPlain (flow : Bool) : List Char → Bool
  | [] => false
  | '-' :: rest => !rest.head?.any isBlank
  | c :: rest =>
    if c = '?' || c = ':' then !flow && !startsGap rest
    else !(isGap c || "-?:,[]\x7b\x7d#&*!|>'\"%@\x60".toList.contains c)

def fetch : Placing Unit := do
  toToken
  dropStaleKeys
  modify fun layout => layout.closeBlocks (some layout.cursor.mark.column)
  let layout ← get
  let flow := layout.inFlow
  let atLineStart := layout.cursor.mark.column = 0
  match layout.cursor.rest with
  | [] => endStream
  | c :: rest =>
    if atLineStart && c = '%' then
      leaveDocument
      token Lexing.directive
    else if atLineStart && startsDocumentLine (c :: rest) then
      leaveDocument
      sign (if c = '-' then .documentStart else .documentEnd) 3
    else if c = '[' then openFlow .flowListStart
    else if c = '\x7b' then openFlow .flowRecordStart
    else if c = ']' then closeFlow .flowListEnd
    else if c = '\x7d' then closeFlow .flowRecordEnd
    else if c = ',' then
      dropKey
      allowKey true
      sign .flowEntry 1
    else if c = '-' && startsGap rest then blockEntry
    else if c = '?' && (flow || startsGap rest) then explicitKey
    else if c = ':' && (flow || startsGap rest) then value
    else if c = '*' then word (Lexing.skip 1 *> .reference <$> Lexing.anchorName)
    else if c = '&' then word (Lexing.skip 1 *> .anchor <$> Lexing.anchorName)
    else if c = '!' then word (Lexing.tag flow)
    else if c = '|' && !flow then blockScalar .literal
    else if c = '>' && !flow then blockScalar .folded
    else if c = '\'' then word (Lexing.quoted false)
    else if c = '"' then word (Lexing.quoted true)
    else if startsPlain flow (c :: rest) then plainScalar
    else failure

def tokens : (fuel : Nat) → Placing (List Token)
  | 0 => failure
  | fuel + 1 => do
    fetch
    let layout ← get
    if layout.read.head?.any (·.kind = .streamEnd) then return layout.read.reverse
    else tokens fuel

end Placing

def tokens? (source : List Char) : Option (List Token) :=
  (Placing.tokens (source.length + 1)).run' { cursor := { rest := source } }

end FlatAggregate.Yaml
