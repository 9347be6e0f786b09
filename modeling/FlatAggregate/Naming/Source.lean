import FlatAggregate.Plan.Basic

/-!
# Name sources

A plan knows its tables and columns by tokens. A name source gives the SQL names of the tokens; it
may not know every table.

`tableName` names a table, `columnName` a column of its own, and `foreignKeyName` the column in
which it stores a copy of another table's column. A `NamingError` says why a name, an alias or an
expression cannot be given; an entry of a plan is told by a `PlanHandle`, its sort and its position.
-/

namespace FlatAggregate

inductive PlanHandle where
  | column (column : ColumnId)
  | select (select : SelectId)
  deriving DecidableEq, Repr

instance : ToString PlanHandle where
  toString
    | .column column => "ColumnId(" ++ toString column ++ ")"
    | .select select => "SelectId(" ++ toString select ++ ")"

inductive NamingError where
  /-- A literal is written out wherever it stands and never named. -/
  | noAlias (value : Int64)
  /-- A column that no source shows and that is not computed either, or a view without a table. -/
  | columnNotInScope (handle : PlanHandle)
  | unknownTable (table : String)
  | missingSourceColumn (column : ColumnId)
  deriving DecidableEq, Repr

def NamingError.message : NamingError → String
  | noAlias value => "Literal column " ++ toString value.toInt ++ " has no alias."
  | columnNotInScope handle =>
    "Column " ++ toString handle ++
      " is neither available from a source nor computable at this level."
  | unknownTable table => "Table " ++ table ++ " is not known to the naming source."
  | missingSourceColumn column =>
    "Foreign key " ++ toString (PlanHandle.column column) ++ " does not reference a table column."

structure NameSource (T C : Type) where
  tableName : T → Except NamingError String
  columnName : C → String
  /-- The name of the column of the table `owner` that stores a copy of the given column. -/
  foreignKeyName : (owner : T) → C → Except NamingError String

namespace NameSource

variable {T C : Type}

/-- Names every token by its text, and a foreign key after the column that it copies. -/
def ofText [ToString T] [ToString C] : NameSource T C where
  tableName table := .ok (toString table)
  columnName column := toString column
  foreignKeyName _ referenced := .ok (toString referenced)

/-- The name of the column that stores the foreign key `column` of a plan in the table of `owner`:
the source decides it from that table and the table column that the key copies in the end. -/
def storedName (names : NameSource T C) (plan : Plan T C) (column : ColumnId) (owner : SelectId) :
    Except NamingError String :=
  match plan.sourceColumn column, plan.tableOf owner with
  | some referenced, some table => names.foreignKeyName table referenced
  | _, _ => .error (.missingSourceColumn column)

end NameSource

end FlatAggregate
