import FlatAggregate.JoinTree

/-!
# Query plans

A query plan says how the rows of an aggregate come together in one flat result. It consists of two
lists, its selects and its columns, whose entries refer to each other by position. A position is
called a handle, and it means something only in its own plan.

A select is a table scan, a view (a scan with a row number within equal foreign keys), or a join of
two selects. Besides the columns of the tables a plan has synthetic ones: copies of ancestor ids,
row numbers, greatest values of two columns, and maxima over the rows of a branch.

In a plan made from a join tree every entry refers to earlier entries only. The functions that
follow references read an entry through `earlier`, so that they end on any plan.

`columnsOf`, `idOf`, `rowNumberOf` and `foreignKeysOf` tell what a select offers to a join above it.
`scanAt` is the scan at a handle itself, and `tableScan` also looks behind a view. `canonical` goes
from a derived column to the column that it shows again, through any number of joins, and
`sourceColumn` goes on through foreign keys to the table column in which they end.
-/

namespace FlatAggregate

abbrev SelectId := Nat

abbrev ColumnId := Nat

inductive GreatestRole where
  /-- An id column of the parent and the child's copy of it. -/
  | identity
  /-- The row numbers of both sides of a join. -/
  | rowNumber
  deriving DecidableEq, Repr

inductive PlanColumn (C : Type) where
  /-- A column of the underlying table. -/
  | base (token : C)
  /-- Another column, shown again one join further up. -/
  | derived (source : ColumnId)
  /-- The copy of an ancestor's id column that the table of `owner` stores. -/
  | foreignKey (references : ColumnId) (owner : SelectId)
  /-- The number of a row among the rows with equal values in `partitionBy`. -/
  | rowNumber (partitionBy : List ColumnId)
  /-- The greater of two columns, an absent value being no competitor. -/
  | greatest (left right : ColumnId) (role : GreatestRole)
  /-- The maximum of `column` over the rows with equal values in `partitionBy`: it spreads an
  ancestor's foreign key over all rows of a branch. -/
  | maxOver (column : ColumnId) (partitionBy : List ColumnId)
  | literal (value : Int64)
  deriving DecidableEq, Repr

structure TableScan (T : Type) where
  table : T
  id : Option ColumnId
  columns : List ColumnId
  foreignKeys : List ColumnId
  key : Option ColumnId
  /-- The literal one: the rows of a scan are not numbered. -/
  rowNumber : ColumnId
  deriving DecidableEq, Repr

namespace TableScan

variable {T : Type}

/-- All columns that the table stores: id, plain columns, foreign keys, key. -/
def allColumns (scan : TableScan T) : List ColumnId :=
  scan.id.toList ++ scan.columns ++ scan.foreignKeys ++ scan.key.toList

/-- The columns that identify a row: the declared id, else the foreign keys and the key. -/
def idColumns (scan : TableScan T) : List ColumnId :=
  match scan.id with
  | some id => [id]
  | none => scan.foreignKeys ++ scan.key.toList

end TableScan

structure JoinCondition where
  left : ColumnId
  right : ColumnId
  deriving DecidableEq, Repr

structure PlanJoin where
  parent : SelectId
  child : SelectId
  multiplicity : Multiplicity
  conditions : List JoinCondition
  /-- The parent's id columns, shown again. -/
  id : List ColumnId
  /-- Per id column of the parent, the greatest of it and the child's foreign key. -/
  identity : List ColumnId
  /-- The greatest of both row numbers. -/
  rowNumber : ColumnId
  /-- Per foreign key of the parent, its maximum over the rows of equal identity. -/
  foreignKeys : List ColumnId
  columns : List ColumnId
  deriving DecidableEq, Repr

inductive PlanSelect (T : Type) where
  | scan (scan : TableScan T)
  /-- The scan `table` with one more column, a row number within equal foreign keys. -/
  | view (table : SelectId) (rowNumber : ColumnId)
  | join (join : PlanJoin)
  deriving DecidableEq, Repr

/-- The selects and columns of a query, in order of creation, and the outermost select. -/
structure Plan (T C : Type) where
  selects : Array (PlanSelect T)
  columns : Array (PlanColumn C)
  root : SelectId
  deriving DecidableEq, Repr

/-- Reads the entry `p` of a list on the way to its entry `n`; one that is not earlier than `n` is
not read and gives `default`. -/
def earlier {α : Type} (n : Nat) (read : (p : Nat) → p < n → α) (default : α) (p : Nat) : α :=
  if h : p < n then read p h else default

namespace Plan

variable {T C : Type}

def scanAt (plan : Plan T C) (select : SelectId) : Option (TableScan T) :=
  match plan.selects[select]? with
  | some (.scan scan) => some scan
  | _ => none

def tableScan (plan : Plan T C) (select : SelectId) : Option (TableScan T) :=
  match plan.selects[select]? with
  | some (.scan scan) => some scan
  | some (.view table _) => plan.scanAt table
  | _ => none

def columnsOf (plan : Plan T C) (select : SelectId) : List ColumnId :=
  match plan.selects[select]? with
  | some (.scan scan) => scan.allColumns
  | some (.view table rowNumber) =>
    ((plan.scanAt table).map TableScan.allColumns).getD [] ++ [rowNumber]
  | some (.join join) => join.columns
  | none => []

def idOf (plan : Plan T C) (select : SelectId) : List ColumnId :=
  match plan.selects[select]? with
  | some (.scan scan) => scan.idColumns
  | some (.view table _) => ((plan.scanAt table).map TableScan.idColumns).getD []
  | some (.join join) => join.id
  | none => []

def rowNumberOf (plan : Plan T C) (select : SelectId) : Option ColumnId :=
  match plan.selects[select]? with
  | some (.scan scan) => some scan.rowNumber
  | some (.view _ rowNumber) => some rowNumber
  | some (.join join) => some join.rowNumber
  | none => none

def foreignKeysOf (plan : Plan T C) (select : SelectId) : List ColumnId :=
  match plan.selects[select]? with
  | some (.scan scan) => scan.foreignKeys
  | some (.view table _) => ((plan.scanAt table).map TableScan.foreignKeys).getD []
  | some (.join join) => join.foreignKeys
  | none => []

/-- The table a select belongs to; for a join the table of its parent side. -/
def tableOf (plan : Plan T C) (select : SelectId) : Option T :=
  match plan.selects[select]? with
  | some (.scan scan) => some scan.table
  | some (.view table _) => earlier select (fun p _ => plan.tableOf p) none table
  | some (.join join) => earlier select (fun p _ => plan.tableOf p) none join.parent
  | none => none
termination_by select

def canonical (plan : Plan T C) (column : ColumnId) : ColumnId :=
  match plan.columns[column]? with
  | some (.derived source) => earlier column (fun p _ => plan.canonical p) column source
  | _ => column
termination_by column

/-- The table column that a column reads in the end, through derived columns and foreign keys. A
computed column reads none. -/
def sourceColumn (plan : Plan T C) (column : ColumnId) : Option C :=
  match plan.columns[column]? with
  | some (.base token) => some token
  | some (.derived source) => earlier column (fun p _ => plan.sourceColumn p) none source
  | some (.foreignKey references _) =>
    earlier column (fun p _ => plan.sourceColumn p) none references
  | _ => none
termination_by column

end Plan

end FlatAggregate
