import FlatAggregate.Proofs.Plan.Layout
import FlatAggregate.Proofs.Rows.Operators

/-!
# The relational reading of a plan

A database gives every table its rows, in some order; a row has a value, or none, for every column
that the table stores. `Plan.rows` reads a select as rows: a scan as those of its table, a view as
those of its scan with their numbers, a join as a full outer join on its conditions. A derived
column is read where the column stands that it shows again, and a literal is read as its number on
every row.

A row also remembers which rows of the tables it is made of, so that statements about a row can
speak of these.

A `Tuple` is such a row. `read` gives the value of any column on it. What is computed (`computed`)
may depend on all rows of the select: row numbers and maxima are windows over the values that these
rows have in the columns of their partitions. `agree` tells whether a pair satisfies all conditions
of a join; a comparison with an absent value is not true.
-/

namespace FlatAggregate

variable {T C V : Type}

abbrev Database (T V : Type) := T → List (ColumnId → Option V)

structure Tuple (T V : Type) where
  /-- The values of the canonical columns that the select reads. -/
  value : ColumnId → Option V
  /-- The position of the row of a table that is part of this row. -/
  source : T → Option Nat

namespace Tuple

/-- The row of a pair. A missing side has no values. -/
def merge (pair : Option (Tuple T V) × Option (Tuple T V)) : Tuple T V where
  value column := (pair.1.bind (·.value column)).or (pair.2.bind (·.value column))
  source table := (pair.1.bind (·.source table)).or (pair.2.bind (·.source table))

def withValues (row : Tuple T V) (columns : List ColumnId) (value : ColumnId → Option V) :
    Tuple T V :=
  { row with value := fun column => if column ∈ columns then value column else row.value column }

theorem value_merge (pair : Option (Tuple T V) × Option (Tuple T V)) (column : ColumnId) :
    (merge pair).value column =
      (pair.1.bind (·.value column)).or (pair.2.bind (·.value column)) := rfl

theorem source_merge (pair : Option (Tuple T V) × Option (Tuple T V)) (table : T) :
    (merge pair).source table =
      (pair.1.bind (·.source table)).or (pair.2.bind (·.source table)) := rfl

theorem withValues_congr {row : Tuple T V} {columns : List ColumnId}
    {value value' : ColumnId → Option V} (h : ∀ column ∈ columns, value column = value' column) :
    row.withValues columns value = row.withValues columns value' := by
  rw [withValues, withValues, Tuple.mk.injEq]
  refine ⟨funext fun column => ?_, rfl⟩
  by_cases hc : column ∈ columns
  · rw [if_pos hc, if_pos hc, h column hc]
  · rw [if_neg hc, if_neg hc]

theorem value_withValues_of_mem {row : Tuple T V} {columns : List ColumnId}
    {value : ColumnId → Option V} {column : ColumnId} (h : column ∈ columns) :
    (row.withValues columns value).value column = value column := if_pos h

theorem value_withValues_of_not_mem {row : Tuple T V} {columns : List ColumnId}
    {value : ColumnId → Option V} {column : ColumnId} (h : column ∉ columns) :
    (row.withValues columns value).value column = row.value column := if_neg h

end Tuple

namespace Plan

variable [Domain V] (plan : Plan T C)

def read (row : Tuple T V) (column : ColumnId) : Option V :=
  match plan.columns[plan.canonical column]? with
  | some (.literal value) => ofNumber value.toInt
  | _ => row.value (plan.canonical column)

def reads (columns : List ColumnId) (row : Tuple T V) : List (Option V) :=
  columns.map (plan.read row)

def computed (rows : List (Tuple T V)) (position : Nat) (row : Tuple T V) (column : ColumnId) :
    Option V :=
  match plan.columns[column]? with
  | some (.rowNumber partitionBy) =>
    ofNumber (rank (rows.map (plan.reads partitionBy)) position (plan.reads partitionBy row))
  | some (.greatest left right _) => greatest [plan.read row left, plan.read row right]
  | some (.maxOver source partitionBy) =>
    spread (rows.map (plan.reads partitionBy)) (rows.map (plan.read · source))
      (plan.reads partitionBy row)
  | _ => none

def compute (columns : List ColumnId) (rows : List (Tuple T V)) : List (Tuple T V) :=
  rows.mapIdx fun position row => row.withValues columns (plan.computed rows position row)

def agree (conditions : List JoinCondition) (left right : Tuple T V) : Bool :=
  let row := Tuple.merge (some left, some right)
  conditions.all fun condition =>
    sameValue (plan.read row condition.left) (plan.read row condition.right)

def scanRow [DecidableEq T] (scan : TableScan T) (position : Nat) (row : ColumnId → Option V) :
    Tuple T V where
  value column := if column ∈ scan.allColumns then row column else none
  source table := if table = scan.table then some position else none

def scanRows [DecidableEq T] (db : Database T V) (scan : TableScan T) : List (Tuple T V) :=
  (db scan.table).mapIdx (scanRow scan)

/-- The rows of a join. Its own foreign keys are computed last, for they are read off the identity
columns. -/
def joinRows (join : PlanJoin) (left right : List (Tuple T V)) : List (Tuple T V) :=
  plan.compute join.foreignKeys <|
    plan.compute (join.identity ++ [join.rowNumber]) <|
      (fullOuter (plan.agree join.conditions) left right).map Tuple.merge

def rows [DecidableEq T] (db : Database T V) (select : SelectId) : List (Tuple T V) :=
  let operand := earlier select (fun p _ => rows db p) []
  match plan.selects[select]? with
  | some (.scan scan) => scanRows db scan
  | some (.view table rowNumber) => plan.compute [rowNumber] (operand table)
  | some (.join join) => plan.joinRows join (operand join.parent) (operand join.child)
  | none => []
termination_by select

section Read

variable {plan} {row : Tuple T V} {column : ColumnId}

theorem read_of_literal {value : Int64}
    (h : plan.columns[plan.canonical column]? = some (.literal value)) :
    plan.read row column = ofNumber value.toInt := by
  rw [read, h]

theorem read_of_not_literal
    (h : ∀ value, plan.columns[plan.canonical column]? ≠ some (.literal value)) :
    plan.read row column = row.value (plan.canonical column) := by
  rw [read]
  split
  · exact absurd ‹_› (h _)
  · rfl

end Read

variable {plan} in
theorem compute_eq_map {columns : List ColumnId}
    (h : ∀ column ∈ columns, ∀ partitionBy, plan.columns[column]? ≠ some (.rowNumber partitionBy))
    (rows : List (Tuple T V)) :
    plan.compute columns rows =
      rows.map fun row => row.withValues columns (plan.computed rows 0 row) := by
  have hvalues : ∀ position (row : Tuple T V),
      row.withValues columns (plan.computed rows position row) =
        row.withValues columns (plan.computed rows 0 row) := fun position row =>
    Tuple.withValues_congr fun column hc => by
      rw [computed, computed]
      cases hd : plan.columns[column]? with
      | none => rfl
      | some definition =>
          cases definition with
          | rowNumber partitionBy => exact absurd hd (h column hc partitionBy)
          | _ => rfl
  rw [compute, List.mapIdx_eq_iff]
  intro position
  rw [List.getElem?_map]
  exact congrArg (Option.map · _) (funext fun row => (hvalues position row).symm)

end Plan

end FlatAggregate
