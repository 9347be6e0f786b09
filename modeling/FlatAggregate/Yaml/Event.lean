import FlatAggregate.Yaml.Layout

/-!
# YAML events

The events of a document are its scalars, its references and the ends of its lists and records, in
order. They follow from the tokens by a grammar: a goal says what has to come next and gives way to
other goals, the tokens deciding which.

`reach` takes one goal and `reachAll` a list of them; what a goal gives is `Reached`: events, goals
in its place and the tokens that are left. A goal is a node, or what comes next in a collection: a
list or record in a block or in brackets, a list that is not indented, or a record without brackets
that is an item of a list in brackets. `Handles` are the beginnings of tags that handles stand for;
two of them need no directive.
-/

namespace FlatAggregate.Yaml

structure Properties where
  anchor : Option String := none
  tag : Option Tag := none
  deriving DecidableEq, Repr

inductive EventKind (R : Type) where
  | reference (target : R)
  | scalar (properties : Properties) (text : String) (style : Style)
  | listStart (properties : Properties)
  | listEnd
  | recordStart (properties : Properties)
  | recordEnd
  deriving DecidableEq, Repr

structure Event (R : Type) where
  kind : EventKind R
  mark : Mark
  deriving DecidableEq, Repr

def Event.empty {R : Type} (mark : Mark) : Event R := ⟨.scalar {} "" .plain, mark⟩

inductive Goal where
  /-- A node. It may be a block collection if `block`, and also a list that is not indented if
  `unindented`. -/
  | node (block unindented : Bool)
  /-- The next item of a block list, or its end. -/
  | blockItem
  /-- The next item of a list that is not indented, or its end. -/
  | unindentedItem
  /-- The next member of a block record, or its end. -/
  | blockMember
  /-- The value of a member of a block record. -/
  | blockValue
  /-- The next item of a flow list, or its end. -/
  | flowItem (first : Bool)
  /-- The key of a record that is an item of a flow list and has no brackets. -/
  | pairKey
  /-- The end of such a record. -/
  | pairEnd
  /-- The next member of a flow record, or its end. -/
  | flowMember (first : Bool)
  /-- The value of a member in a flow collection that ends with `close`. -/
  | flowValue (close : TokenKind)
  /-- The value of a member of a flow record that has none. -/
  | noValue
  deriving Repr

/-- What a goal turns out to be: events, goals in its place, and the tokens that are left. -/
structure Reached where
  events : List (Event String) := []
  goals : List Goal := []
  rest : List Token

namespace Goal

abbrev Handles := List (String × Tag)

def commonHandles : Handles := [("!", .ofText "!"), ("!!", .ofText "tag:yaml.org,2002:")]

def fullTag (handles : Handles) (handle : String) (suffix : Tag) : Option Tag :=
  if handle.isEmpty then some suffix else (handles.lookup handle).map (· ++ suffix)

def properties (handles : Handles) : List Token → Option (Properties × List Token)
  | ⟨.anchor name, _⟩ :: ⟨.tag handle suffix, _⟩ :: rest
  | ⟨.tag handle suffix, _⟩ :: ⟨.anchor name, _⟩ :: rest =>
    (fullTag handles handle suffix).map fun tag => (⟨name, tag⟩, rest)
  | ⟨.anchor name, _⟩ :: rest => some (⟨name, none⟩, rest)
  | ⟨.tag handle suffix, _⟩ :: rest =>
    (fullTag handles handle suffix).map fun tag => (⟨none, tag⟩, rest)
  | rest => some ({}, rest)

/-- Reaches a node. Its place is that of its properties, if it has some; properties with nothing
after them belong to an empty scalar. -/
def reachNode (handles : Handles) (block unindented : Bool) (tokens : List Token) :
    Option Reached := do
  let start ← tokens.head?
  if let .reference name := start.kind then
    return { events := [⟨.reference name, start.mark⟩], rest := tokens.tail }
  let (properties, rest) ← properties handles tokens
  let token ← rest.head?
  let starts (kind : EventKind String) (goal : Goal) (rest : List Token) : Option Reached :=
    some { events := [⟨kind, start.mark⟩], goals := [goal], rest }
  let list := EventKind.listStart properties
  let record := EventKind.recordStart properties
  match token.kind, block, unindented with
  | .blockEntry, _, true => starts list .unindentedItem rest
  | .scalar text style, _, _ =>
    return { events := [⟨.scalar properties text style, start.mark⟩], rest := rest.tail }
  | .flowListStart, _, _ => starts list (.flowItem true) rest.tail
  | .flowRecordStart, _, _ => starts record (.flowMember true) rest.tail
  | .blockListStart, true, _ => starts list .blockItem rest.tail
  | .blockRecordStart, true, _ => starts record .blockMember rest.tail
  | _, _, _ =>
    if properties = {} then none
    else return { events := [⟨.scalar properties "" .plain, start.mark⟩], rest }

/-- Reaches a node after a sign unless one of the given tokens comes next; then the node is empty
and stands at `place`, or else at that token. -/
def reachAfter (sign : List TokenKind) (node : Goal) (goals : List Goal) (place : Option Mark)
    (rest : List Token) : Option Reached := do
  let next ← rest.head?
  if sign.contains next.kind then
    return { events := [.empty (place.getD next.mark)], goals, rest }
  else return { goals := node :: goals, rest }

/-- Moves past the comma before an item or a member that is not the first; without a comma the
collection has to end. -/
def afterComma (first : Bool) (close : TokenKind) (tokens : List Token) : Option (List Token) := do
  let token ← tokens.head?
  if first || token.kind = close then return tokens
  else if token.kind = .flowEntry then return tokens.tail
  else none

def reach (handles : Handles) (goal : Goal) (tokens : List Token) : Option Reached := do
  match goal with
  | node block unindented => reachNode handles block unindented tokens
  | blockItem =>
    let token ← tokens.head?
    match token.kind with
    | .blockEntry =>
      reachAfter [.blockEntry, .blockEnd] (node true false) [blockItem] token.next tokens.tail
    | .blockEnd => return { events := [⟨.listEnd, token.mark⟩], rest := tokens.tail }
    | _ => none
  | unindentedItem =>
    let token ← tokens.head?
    if token.kind = .blockEntry then
      reachAfter [.blockEntry, .key, .value, .blockEnd] (node true false) [unindentedItem]
        token.next tokens.tail
    else return { events := [⟨.listEnd, token.mark⟩], rest := tokens }
  | blockMember =>
    let token ← tokens.head?
    match token.kind with
    | .key =>
      reachAfter [.key, .value, .blockEnd] (node true true) [blockValue, blockMember] token.next
        tokens.tail
    | .blockEnd => return { events := [⟨.recordEnd, token.mark⟩], rest := tokens.tail }
    | _ => none
  | blockValue =>
    let token ← tokens.head?
    if token.kind = .value then
      reachAfter [.key, .value, .blockEnd] (node true true) [] token.next tokens.tail
    else return { events := [.empty token.mark], rest := tokens }
  | flowItem first =>
    let tokens ← afterComma first .flowListEnd tokens
    let token ← tokens.head?
    match token.kind with
    | .key =>
      return {
        events := [⟨.recordStart {}, token.mark⟩]
        goals := [pairKey, flowValue .flowListEnd, pairEnd, flowItem false]
        rest := tokens.tail }
    | .flowListEnd => return { events := [⟨.listEnd, token.mark⟩], rest := tokens.tail }
    | _ => return { goals := [node false false, flowItem false], rest := tokens }
  | pairKey =>
    -- what comes in the place of a missing key is passed over
    let token ← tokens.head?
    if [.value, .flowEntry, .flowListEnd].contains token.kind then
      return { events := [.empty token.next], rest := tokens.tail }
    else return { goals := [node false false], rest := tokens }
  | pairEnd =>
    let token ← tokens.head?
    return { events := [⟨.recordEnd, token.mark⟩], rest := tokens }
  | flowMember first =>
    let tokens ← afterComma first .flowRecordEnd tokens
    let token ← tokens.head?
    match token.kind with
    | .key =>
      reachAfter [.value, .flowEntry, .flowRecordEnd] (node false false)
        [flowValue .flowRecordEnd, flowMember false] none tokens.tail
    | .flowRecordEnd => return { events := [⟨.recordEnd, token.mark⟩], rest := tokens.tail }
    | _ => return { goals := [node false false, noValue, flowMember false], rest := tokens }
  | flowValue close =>
    let token ← tokens.head?
    if token.kind = .value then
      reachAfter [.flowEntry, close] (node false false) [] none tokens.tail
    else return { events := [.empty token.mark], rest := tokens }
  | noValue =>
    let token ← tokens.head?
    return { events := [.empty token.mark], rest := tokens }

/-- Reaches goals one after the other, in at most `fuel` steps. Gives the events and the tokens that
are left. -/
def reachAll (handles : Handles) :
    (fuel : Nat) → List Goal → List Token → Option (List (Event String) × List Token)
  | _, [], tokens => some ([], tokens)
  | 0, _ :: _, _ => none
  | fuel + 1, goal :: goals, tokens => do
    let reached ← goal.reach handles tokens
    let (events, rest) ← reachAll handles fuel (reached.goals ++ goals) reached.rest
    return (reached.events ++ events, rest)

end Goal

/-- The directives that tokens begin with: the handles they declare, and the tokens after them. A
version and each handle are declared once. -/
def directives : (version : Bool) → Goal.Handles → List Token → Option (Goal.Handles × List Token)
  | version, handles, ⟨.versionDirective major minor, _⟩ :: rest =>
    if version || major ≠ 1 || (minor ≠ 1 && minor ≠ 2) then none
    else directives true handles rest
  | version, handles, ⟨.tagDirective handle stem, _⟩ :: rest =>
    if (handles.lookup handle).isSome then none
    else directives version ((handle, stem) :: handles) rest
  | _, handles, rest => some (handles ++ Goal.commonHandles, rest)

/-- The start of the first document: the handles that are declared, whether dashes stand before the
document, and the tokens after them. -/
def documentStart (tokens : List Token) : Option (Goal.Handles × Bool × List Token) := do
  let (handles, rest) ← directives false [] tokens
  let token ← rest.head?
  if token.kind = .documentStart then return (handles, true, rest.tail)
  else if rest.length = tokens.length then return (handles, false, rest)
  else none

def endsStream (tokens : List Token) : Bool :=
  (tokens.dropWhile (·.kind = .documentEnd)).head?.any (·.kind = .streamEnd)

def isBlankDocument (dashed : Bool) : TokenKind → Bool
  | .streamEnd => true
  | .versionDirective _ _ | .tagDirective _ _ | .documentStart | .documentEnd => dashed
  | _ => false

/-- The events of a document, which has to be the only one. Where nothing is written the document is
an empty node. -/
def events? (tokens : List Token) : Option (List (Event String)) := do
  let (handles, dashed, rest) ← documentStart tokens
  let token ← rest.head?
  let (events, rest) ←
    if isBlankDocument dashed token.kind then some ([.empty token.mark], rest)
    else Goal.reachAll handles (4 * tokens.length + 4) [.node true false] rest
  if endsStream rest then return events else none

end FlatAggregate.Yaml
