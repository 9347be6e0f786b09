import FlatAggregate.Alias.Book
import FlatAggregate.Statement.Basic

/-!
# Lowering a plan to a statement

Every level of the statement has a scope: how its sources show the columns of the plan, by canonical
handle. A table shows a column as `alias.column`, an inline query as `alias.column_alias`. A column
that no source shows (a greatest value, a row number, a maximum over a partition, a literal) is
computed in place from columns in scope.

A join is a statement over two sources. Its child is always an inline query; its parent is one too,
unless it is a bare table.

`statement` writes the statement of a select and calls itself on the operands. `tableSource` and
`subquerySource` give a source together with what it shows; `expression` writes a column in a scope,
`selectItems` and `condition` write the items and conditions of a level. All of them ask for aliases
on the way, so they are programs on the alias book. The statement of a view reads the table behind
it; a view of anything but a table is refused.
-/

namespace FlatAggregate

structure Exposure where
  expr : Expr
  /-- Whether the column bears its alias already, so that showing it again needs no `AS`. -/
  aliased : Bool
  deriving Repr

/-- The columns that the sources of one level show. Later entries hide earlier ones. -/
abbrev Scope := List (ColumnId × Exposure)

namespace Scope

def find? (scope : Scope) (column : ColumnId) : Option Exposure :=
  scope.reverse.lookup column

end Scope

namespace Plan

variable {T C : Type}

/-- The expression of a column in a scope: what a source shows, else the computation. -/
def expression (plan : Plan T C) (scope : Scope) (column : ColumnId) : Except NamingError Expr :=
  let origin := plan.canonical column
  match scope.find? origin with
  | some exposure => .ok exposure.expr
  | none =>
    let operand := earlier column (fun p _ => plan.expression scope p)
      (.error (.columnNotInScope (.column origin)))
    match plan.columns[origin]? with
    | some (.literal value) => .ok (.literal value)
    | some (.greatest left right _) => do
      return .call "GREATEST" [← operand left, ← operand right]
    | some (.rowNumber partitionBy) => do
      return .window "ROW_NUMBER" [] (← partitionBy.mapM operand)
    | some (.maxOver source partitionBy) => do
      return .window "MAX" [← operand source] (← partitionBy.mapM operand)
    | _ => .error (.columnNotInScope (.column origin))
termination_by column

end Plan

namespace Lowering

variable {T C : Type} [DecidableEq T] [DecidableEq C] (names : NameSource T C) (plan : Plan T C)

/-- The name under which a table stores a column: nothing for a column that it computes. -/
def storedColumn (column : ColumnId) : Except NamingError (Option String) :=
  match plan.columns[column]? with
  | some (.base token) => .ok (some (names.columnName token))
  | some (.foreignKey _ owner) => some <$> names.storedName plan column owner
  | _ => .ok none

def tableScope (aliasName : String) (columns : List ColumnId) : Except NamingError Scope := do
  let stored ← columns.mapM fun column => do return (column, ← storedColumn names plan column)
  return stored.filterMap fun (column, name?) =>
    name?.map fun name => (column, ⟨.property aliasName name, false⟩)

def tableSource (select : SelectId) (scan : TableScan T) : Aliasing T C (Source × Scope) := do
  let aliasName ← Aliasing.select names plan select
  let scope ← tableScope names plan aliasName scan.allColumns
  return (.table (← names.tableName scan.table) aliasName, scope)

/-- The items that show the given columns. A column that a source shows under its alias is taken
as it is; any other gets its alias here. -/
def selectItems (scope : Scope) (columns : List ColumnId) : Aliasing T C (List SelectItem) :=
  columns.mapM fun column => do
    match scope.find? (plan.canonical column) with
    | some ⟨expr, true⟩ => return ⟨expr, none⟩
    | _ =>
      let expr ← plan.expression scope column
      return ⟨expr, some (← Aliasing.column names plan column)⟩

def subquerySource (select : SelectId) (query : Statement) : Aliasing T C (Source × Scope) := do
  let aliasName ← Aliasing.select names plan select
  let scope ← (plan.columnsOf select).mapM fun column => do
    let name ← Aliasing.column names plan column
    return (plan.canonical column, ⟨.property aliasName name, true⟩)
  return (.subquery query aliasName, scope)

def condition (scope : Scope) (condition : JoinCondition) : Except NamingError Operation := do
  return Expr.equals (← plan.expression scope condition.left)
    (← plan.expression scope condition.right)

def statement (select : SelectId) : Aliasing T C Statement := do
  let lower := earlier select (fun p _ => statement p) (throw (.unknownTable (toString select)))
  match plan.selects[select]? with
  | some (.scan scan) =>
    let (source, scope) ← tableSource names plan select scan
    return ⟨← selectItems names plan scope scan.allColumns, source, [], []⟩
  | some (.view table rowNumber) =>
    match plan.scanAt table with
    | some scan =>
      let (source, scope) ← tableSource names plan table scan
      return ⟨← selectItems names plan scope (scan.allColumns ++ [rowNumber]), source, [], []⟩
    | none => throw (.columnNotInScope (.select table))
  | some (.join join) =>
    let (parent, parentScope) ←
      match plan.scanAt join.parent with
      | some scan => tableSource names plan join.parent scan
      | none => subquerySource names plan join.parent (← lower join.parent)
    let (child, childScope) ← subquerySource names plan join.child (← lower join.child)
    let scope := parentScope ++ childScope
    let conditions ← liftM (join.conditions.mapM (condition plan scope))
    return ⟨← selectItems names plan scope join.columns, parent,
      [⟨child, conditions, .fullOuter⟩], []⟩
  | none => throw (.unknownTable (toString select))
termination_by select

/-- The statement of a whole plan. A join at the top is ordered by its identity columns and then by
its row number, so that all rows of one root stay together. -/
def query : Aliasing T C Statement := do
  let result ← statement names plan plan.root
  match plan.selects[plan.root]? with
  | some (.join join) =>
    let orderBy ← (join.identity ++ [join.rowNumber]).mapM fun column => do
      return ⟨.aliasRef (← Aliasing.column names plan column), .ascending⟩
    return { result with orderBy }
  | _ => return result

end Lowering

end FlatAggregate
