import FlatAggregate.JoinTree

/-!
# Drafts

A draft collects the tables of an aggregate one at a time, root first. It keeps the tables and joins
of a join tree as nodes that refer to each other by position, and beside them an index from every
operand to the join above it.

A new child goes to the top of the spine of its parent table. The index leads there: it is followed
upwards from the node of the table for as long as the join above belongs to that table. The new join
takes the place of the node where the way ends, inside a branch that may itself be the child side of
joins further up.

`addRoot` and `addChild` are the calls, and a call that is refused makes no new draft. `tree?` gives
the join tree of the tables added so far. What a call adds is a `TableSpec`, made beforehand: it
bears the token of the table, and everything else in it (id, columns, key) is free.
-/

namespace FlatAggregate

abbrev NodeId := Nat

/-- A node of a join tree whose operands stand elsewhere in the same draft. -/
inductive DraftNode (T C : Type) where
  | table (spec : TableSpec T C)
  | join (parent child : NodeId) (multiplicity : Multiplicity) (owner : T)
  deriving DecidableEq, Repr

namespace DraftNode

variable {T C : Type}

def owner : DraftNode T C → T
  | table spec => spec.table
  | join _ _ _ owner => owner

/-- A table that declares neither id nor key lacks an identity of its own. -/
def lacksIdentity : DraftNode T C → Bool
  | table spec => !spec.hasIdentity
  | join .. => false

/-- Puts `new` where `old` is an operand, on the child side first. -/
def replaceOperand (old new : NodeId) : DraftNode T C → DraftNode T C
  | table spec => table spec
  | join parent child multiplicity owner =>
    if child = old then join parent new multiplicity owner
    else if parent = old then join new child multiplicity owner
    else join parent child multiplicity owner

end DraftNode

structure Draft (T C : Type) where
  nodes : Array (DraftNode T C) := #[]
  /-- The join above each node that is an operand; later entries stand first. -/
  joinsAbove : List (NodeId × NodeId) := []
  /-- The node of each table. -/
  tables : List (T × NodeId) := []
  rootTable : Option NodeId := none
  /-- The node that has no join above it. -/
  root : Option NodeId := none
  deriving DecidableEq, Repr

namespace Draft

variable {T C : Type}

def empty : Draft T C := {}

def joinAbove (draft : Draft T C) (node : NodeId) : Option NodeId :=
  draft.joinsAbove.lookup node

def owner? (draft : Draft T C) (node : NodeId) : Option T :=
  draft.nodes[node]?.map DraftNode.owner

def push (draft : Draft T C) (node : DraftNode T C) : Draft T C × NodeId :=
  ({ draft with nodes := draft.nodes.push node }, draft.nodes.size)

/-- Adds the node of a table and registers the table. The token under which the table is registered
is the one that its specification has: configuring a table sets its id, columns and key and leaves
the token alone, so the token of a call and that of the table made for it are not kept apart. A
configuration that puts the table of another token in place of its own is left out. -/
def pushTable (draft : Draft T C) (spec : TableSpec T C) : Draft T C × NodeId :=
  let (draft, node) := draft.push (.table spec)
  ({ draft with tables := (spec.table, node) :: draft.tables }, node)

def addRoot [ToString T] (draft : Draft T C) (spec : TableSpec T C) :
    Except JoinTreeError (Draft T C) :=
  match draft.rootTable with
  | some node =>
    .error (.rootAlreadyDefined (((draft.owner? node).map toString).getD ""))
  | none =>
    let (draft, node) := draft.pushTable spec
    .ok { draft with rootTable := some node, root := some node }

section

variable [DecidableEq T]

/-- Goes up from a node, at most `steps` times, while the join above belongs to `table`. -/
def climb (draft : Draft T C) (table : T) : (steps : Nat) → NodeId → NodeId
  | 0, node => node
  | steps + 1, node =>
    match draft.joinAbove node with
    | some join => if draft.owner? join = some table then draft.climb table steps join else node
    | none => node

/-- The top of the spine of a table that has the given node. No way up is longer than the number of
nodes. -/
def attachmentPoint (draft : Draft T C) (table : T) (node : NodeId) : NodeId :=
  draft.climb table draft.nodes.size node

/-- Joins a new table to the top of the spine of `parent`, and puts the join where that top was. -/
def graft (draft : Draft T C) (parent : T) (parentNode : NodeId) (multiplicity : Multiplicity)
    (spec : TableSpec T C) : Draft T C :=
  let attachment := draft.attachmentPoint parent parentNode
  let above := draft.joinAbove attachment
  let (draft, child) := draft.pushTable spec
  let (draft, join) := draft.push (.join attachment child multiplicity parent)
  let draft := { draft with joinsAbove := (child, join) :: (attachment, join) :: draft.joinsAbove }
  match above with
  | some outer =>
    { draft with
      nodes := draft.nodes.modify outer (.replaceOperand attachment join)
      joinsAbove := (join, outer) :: draft.joinsAbove }
  | none => { draft with root := some join }

/-- Adds a table below `parent`. The parent has to be there and the child not; and a root without
id and key has no children, for its rows could not be told apart. -/
def addChild [ToString T] (draft : Draft T C) (parent : T) (multiplicity : Multiplicity)
    (spec : TableSpec T C) : Except JoinTreeError (Draft T C) :=
  match draft.rootTable with
  | none => .error .missingRoot
  | some rootTable =>
    match draft.tables.lookup parent with
    | none => .error (.unknownTable (toString parent))
    | some parentNode =>
      if (draft.tables.lookup spec.table).isSome then
        .error (.duplicateTable (toString spec.table))
      else if parentNode = rootTable ∧ draft.nodes[parentNode]?.any DraftNode.lacksIdentity then
        .error (.missingIdentity (toString parent))
      else .ok (draft.graft parent parentNode multiplicity spec)

end

def treeAt (draft : Draft T C) : (depth : Nat) → NodeId → Option (JoinTree T C)
  | 0, _ => none
  | depth + 1, node =>
    match draft.nodes[node]? with
    | some (.table spec) => some (.table spec)
    | some (.join parent child multiplicity owner) => do
      let parent ← draft.treeAt depth parent
      let child ← draft.treeAt depth child
      return .join parent child multiplicity owner
    | none => none

/-- The join tree of all tables added so far. No tree is deeper than its number of nodes. -/
def tree? (draft : Draft T C) : Option (JoinTree T C) :=
  draft.root.bind (draft.treeAt draft.nodes.size)

end Draft

end FlatAggregate
