import FlatAggregate.JoinTree

/-!
# Aggregate definitions

An aggregate is a root entity with nested children. Every entity maps a table: an optional id
column, plain columns in select order, and children in join order. A child hangs off its parent by a
property and may name the column that points back to the parent.

An `Aggregate` gives its root entity a name. A `Child` says of its entity how many of its rows
belong to a row of the parent and, in a keyed collection, which column holds the position or the key
of a row. Nothing is checked here: names may be empty and properties may repeat, until a schema is
made.
-/

namespace FlatAggregate

mutual

structure Entity where
  table : String
  idColumn : Option String := none
  columns : List String := []
  children : List Child := []

structure Child where
  /-- The property of the parent, one of its kind among siblings. -/
  property : String
  multiplicity : Multiplicity := .multiple
  /-- The column of the list index or map key of a keyed collection. -/
  keyColumn : Option String := none
  /-- The column with the parent's id; without one it is named after the parent's table. -/
  backReference : Option String := none
  entity : Entity

end

deriving instance Repr for Entity, Child

structure Aggregate where
  name : String
  root : Entity
  deriving Repr

end FlatAggregate
