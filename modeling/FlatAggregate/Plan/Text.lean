import FlatAggregate.Plan.Basic

/-!
# The text of a plan

A plan has a compact text, such as
`AJ{TD{parent}, AV{TD{child}}, eq(id, FK(child, id)), eq(lit(1), RN(FK(child, id)))}`: `TD` is a
table, `AV` a view, `AJ` a join with its two sides and its conditions. A derived column reads as
the column it shows again.

A column of a table reads as its token, and a synthetic one as a call: `FK` with the table that
stores the copy and what it references, `RN` with the partition, `greatest` with both columns, and
so on. The text of a plan is that of its outermost select.
-/

namespace FlatAggregate.Plan

variable {T C : Type} [ToString T] [ToString C]

def tableText (plan : Plan T C) (select : SelectId) : String :=
  ((plan.tableOf select).map toString).getD ""

def columnText (plan : Plan T C) (column : ColumnId) : String :=
  let text := earlier column (fun p _ => plan.columnText p) ""
  let texts (columns : List ColumnId) := ", ".intercalate (columns.map text)
  match plan.columns[column]? with
  | none => ""
  | some (.base token) => toString token
  | some (.derived source) => text source
  | some (.foreignKey references owner) =>
    "FK(" ++ plan.tableText owner ++ ", " ++ text references ++ ")"
  | some (.rowNumber partitionBy) => "RN(" ++ texts partitionBy ++ ")"
  | some (.greatest left right _) => "greatest(" ++ text left ++ ", " ++ text right ++ ")"
  | some (.maxOver source partitionBy) =>
    "maxOver(" ++ text source ++ ", " ++ texts partitionBy ++ ")"
  | some (.literal value) => "lit(" ++ toString value.toInt ++ ")"
termination_by column

def columnsText (plan : Plan T C) (columns : List ColumnId) : String :=
  ", ".intercalate (columns.map plan.columnText)

def conditionText (plan : Plan T C) (condition : JoinCondition) : String :=
  "eq(" ++ plan.columnText condition.left ++ ", " ++ plan.columnText condition.right ++ ")"

def selectText (plan : Plan T C) (select : SelectId) : String :=
  let text := earlier select (fun p _ => plan.selectText p) ""
  match plan.selects[select]? with
  | none => ""
  | some (.scan scan) => "TD\x7b" ++ toString scan.table ++ "\x7d"
  | some (.view table _) => "AV\x7b" ++ text table ++ "\x7d"
  | some (.join join) =>
    "AJ\x7b" ++ ", ".intercalate
      (text join.parent :: text join.child :: join.conditions.map plan.conditionText) ++ "\x7d"
termination_by select

instance : ToString (Plan T C) := ⟨fun plan => plan.selectText plan.root⟩

end FlatAggregate.Plan
