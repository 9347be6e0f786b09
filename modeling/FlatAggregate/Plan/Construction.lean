import FlatAggregate.Draft
import FlatAggregate.Plan.Basic

/-!
# Building a plan from a join tree

A join of `P` and `C` is built with the id columns of the ancestor that it will be joined to, the
incoming columns (none for the outermost join). Foreign keys for the incoming columns land in the
left-most table of `P`; `C` receives one foreign key per id column of `P`. The join then shows

* per id column of `P`, the greatest of it and of the child's foreign key, as its identity;
* the greatest of both row numbers, as its row number;
* per foreign key of `P`, its maximum over the rows of equal identity, as its own foreign keys, so
  that the reference to the ancestor reaches every row of the branch, rows of children alone
  included.

Selects and columns are numbered in the order in which they are added here.

`PlanParts` are the two lists on their way. `addSelect`, `addColumn` and `addColumns` add entries
and give their handles; `addScan`, `addView` and `addJoin` add a select with its columns and give
the `Operand` that it is to the next join. `build` adds a whole tree; `JoinTree.plan` is the plan of
a tree, and `Draft.plan` that of the tree of a draft.
-/

namespace FlatAggregate

structure PlanParts (T C : Type) where
  selects : Array (PlanSelect T) := #[]
  columns : Array (PlanColumn C) := #[]
  deriving DecidableEq, Repr

/-- A select just built, with what a join above it asks for. -/
structure Operand where
  select : SelectId
  id : List ColumnId
  rowNumber : ColumnId
  foreignKeys : List ColumnId
  columns : List ColumnId
  deriving DecidableEq, Repr

namespace PlanParts

variable {T C : Type}

def addSelect (parts : PlanParts T C) (select : PlanSelect T) : PlanParts T C × SelectId :=
  ({ parts with selects := parts.selects.push select }, parts.selects.size)

def addColumn (parts : PlanParts T C) (column : PlanColumn C) : PlanParts T C × ColumnId :=
  ({ parts with columns := parts.columns.push column }, parts.columns.size)

def addColumns (parts : PlanParts T C) (columns : List (PlanColumn C)) :
    PlanParts T C × List ColumnId :=
  ({ parts with columns := parts.columns ++ columns },
    List.range' parts.columns.size columns.length)

theorem addColumns_singleton (parts : PlanParts T C) (column : PlanColumn C) :
    parts.addColumns [column] =
      ((parts.addColumn column).1, [(parts.addColumn column).2]) := by
  simp [addColumns, addColumn]

/-- Adds the scan of a table with foreign keys for the incoming columns. The columns come in the
order id, plain columns, foreign keys, key, row number. -/
def addScan (parts : PlanParts T C) (spec : TableSpec T C) (incoming : List ColumnId) :
    PlanParts T C × Operand :=
  let (parts, id) := parts.addColumns (spec.id.toList.map .base)
  let (parts, columns) := parts.addColumns (spec.columns.map .base)
  let (parts, foreignKeys) :=
    parts.addColumns (incoming.map (.foreignKey · parts.selects.size))
  let (parts, key) := parts.addColumns (spec.key.toList.map .base)
  let (parts, rowNumber) := parts.addColumn (.literal 1)
  let scan : TableScan T :=
    { table := spec.table, id := id.head?, columns, foreignKeys, key := key.head?, rowNumber }
  let (parts, select) := parts.addSelect (.scan scan)
  (parts, { select, id := scan.idColumns, rowNumber, foreignKeys, columns := scan.allColumns })

/-- Adds the view of a scan: its rows are numbered within equal foreign keys. -/
def addView (parts : PlanParts T C) (scan : Operand) : PlanParts T C × Operand :=
  let (parts, rowNumber) := parts.addColumn (.rowNumber scan.foreignKeys)
  let (parts, select) := parts.addSelect (.view scan.select rowNumber)
  (parts, { scan with select, rowNumber, columns := scan.columns ++ [rowNumber] })

def addJoin (parts : PlanParts T C) (parent child : Operand) (multiplicity : Multiplicity) :
    PlanParts T C × Operand :=
  let pairs := parent.id.zip child.foreignKeys
  let (parts, identity) := parts.addColumns (pairs.map fun (l, r) => .greatest l r .identity)
  let (parts, rowNumber) :=
    parts.addColumn (.greatest parent.rowNumber child.rowNumber .rowNumber)
  let (parts, foreignKeys) := parts.addColumns (parent.foreignKeys.map (.maxOver · identity))
  let (parts, id) := parts.addColumns (parent.id.map .derived)
  let (parts, shown) := parts.addColumns ((parent.columns ++ child.columns).map .derived)
  let columns := shown ++ identity ++ [rowNumber] ++ foreignKeys
  let join : PlanJoin :=
    { parent := parent.select, child := child.select, multiplicity
      conditions := pairs.map (fun (l, r) => ⟨l, r⟩) ++ [⟨parent.rowNumber, child.rowNumber⟩]
      id, identity, rowNumber, foreignKeys, columns }
  let (parts, select) := parts.addSelect (.join join)
  (parts, { select, id, rowNumber, foreignKeys, columns })

end PlanParts

namespace JoinTree

variable {T C : Type} [ToString T]

/-- Adds a tree to the parts, with foreign keys for the incoming columns. A table stays a bare
scan. A join whose parent side has no id columns is refused: nothing would hold its rows
together. -/
def build (parts : PlanParts T C) (incoming : List ColumnId) :
    JoinTree T C → Except JoinTreeError (PlanParts T C × Operand)
  | table spec => .ok (parts.addScan spec incoming)
  | join parent child multiplicity owner => do
    let (parts, parent) ← parent.build parts incoming
    if parent.id.isEmpty then
      .error (.missingIdentity (toString owner))
    else
      let (parts, child) ←
        match child with
        | table spec =>
          let (parts, scan) := parts.addScan spec parent.id
          .ok (parts.addView scan)
        | join .. => child.build parts parent.id
      .ok (parts.addJoin parent child multiplicity)

def plan (tree : JoinTree T C) : Except JoinTreeError (Plan T C) := do
  let (parts, top) ← tree.build {} []
  .ok { selects := parts.selects, columns := parts.columns, root := top.select }

end JoinTree

def Draft.plan {T C : Type} [ToString T] (draft : Draft T C) : Except JoinTreeError (Plan T C) :=
  match draft.tree? with
  | none => .error .missingRoot
  | some tree => tree.plan

end FlatAggregate
