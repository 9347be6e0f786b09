import FlatAggregate.Yaml.Event

/-!
# YAML documents

A document holds its events by position, and a reference in it leads to the position of a node.

An anchor takes the number of names that are in use before it, and a reference means the number that
its name has at that point. When names are used again two anchors may get the same number; then the
later one counts for all references to it.

`Document.ofEvents?` goes through the events once and keeps the names in use in `Anchors`; a name
has to be in use before it is referred to. `Document.ofText?` does all steps from the text on.
-/

namespace FlatAggregate.Yaml

def Event.anchor? {R : Type} (event : Event R) : Option String :=
  match event.kind with
  | .scalar properties _ _ | .listStart properties | .recordStart properties => properties.anchor
  | _ => none

def Event.map {R S : Type} (f : R → S) (event : Event R) : Event S :=
  let kind :=
    match event.kind with
    | .reference target => .reference (f target)
    | .scalar properties text style => .scalar properties text style
    | .listStart properties => .listStart properties
    | .listEnd => .listEnd
    | .recordStart properties => .recordStart properties
    | .recordEnd => .recordEnd
  ⟨kind, event.mark⟩

/-- The numbers of the names in use, and the positions of the numbered anchors, the latest first. -/
structure Anchors where
  numbers : List (String × Nat) := []
  positions : List (Nat × Nat) := []
  deriving Repr

namespace Anchors

def enter (anchors : Anchors) (name : String) (position : Nat) : Anchors :=
  let number := anchors.numbers.length
  { numbers := (name, number) :: anchors.numbers.filter (·.1 ≠ name)
    positions := (number, position) :: anchors.positions }

def enterEvent (anchors : Anchors) (event : Event String) (position : Nat) : Anchors :=
  match event.anchor? with
  | some name => anchors.enter name position
  | none => anchors

/-- Replaces names by numbers in the events from a position on. A name has to be in use before it
is referred to. -/
def number? (anchors : Anchors) (position : Nat) :
    List (Event String) → Option (List (Event Nat) × Anchors)
  | [] => some ([], anchors)
  | event :: rest => do
    let number ←
      match event.kind with
      | .reference name => anchors.numbers.lookup name
      | _ => some 0
    let (events, anchors) ← number? (anchors.enterEvent event position) (position + 1) rest
    return (event.map (fun _ => number) :: events, anchors)

end Anchors

/-- The events of a document by position; a reference gives a position. -/
abbrev Document := Array (Event Nat)

def Document.ofEvents? (events : List (Event String)) : Option Document := do
  let (numbered, anchors) ← Anchors.number? {} 0 events
  let position (number : Nat) := (anchors.positions.lookup number).getD 0
  return (numbered.map (·.map position)).toArray

def Document.ofText? (text : String) : Option Document := do
  Document.ofEvents? (← events? (← tokens? (← source? text)))

end FlatAggregate.Yaml
