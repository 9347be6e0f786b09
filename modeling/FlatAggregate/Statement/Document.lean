import FlatAggregate.Document.Value
import FlatAggregate.Statement.Basic

/-!
# Statements as documents

Statements are exchanged as documents: a record per structure, and per alternative a record with a
single member named after it. Reading takes the members in any order and passes over unknown ones,
takes a list of all fields in order in place of a record, and lets the alias of a select item be
left out. The alternatives of a source are read from records only.

For each of the types there is a `toValue` and an `ofValue?`, which gives nothing for a document of
something else. The types refer to each other, so statements, sources and joins are written and read
by mutual recursion on the statement and on the size of the value.
-/

namespace FlatAggregate

open Value

namespace Operator

def toValue : Operator → Value
  | equal => text "Equal"

def ofValue? (value : Value) : Option Operator :=
  match value.case? with
  | some "Equal" => some equal
  | _ => none

end Operator

mutual

def Expr.toValue : Expr → Value
  | .literal value => object [("Literal", object [("Integer", integer value.toInt)])]
  | .aliasRef name => object [("ColumnAlias", text name)]
  | .property source column =>
    object [("PropertyAccessExp", object [("table_alias", text source), ("column", text column)])]
  | .call function args =>
    object [("ScalarFnCall", object [("name", text function), ("args", list (Expr.toValues args))])]
  | .window function args partitionBy =>
    object [("WindowFnCall", object
      [("name", text function), ("args", list (Expr.toValues args)),
        ("partition_by", list (Expr.toValues partitionBy))])]
  | .operation operator operands =>
    object [("OperatorApplicationExp", object
      [("operator", operator.toValue), ("operands", list (Expr.toValues operands))])]

def Expr.toValues : List Expr → List Value
  | [] => []
  | expr :: rest => expr.toValue :: Expr.toValues rest

end

def Value.int64? : Value → Option Int64
  | integer value => if (Int64.ofInt value).toInt = value then some (Int64.ofInt value) else none
  | _ => none

mutual

def Expr.ofValue? (value : Value) : Option Expr := do
  let (tag, ⟨content, _⟩) ← value.tagged?
  match tag with
  | "Literal" =>
    let ("Integer", ⟨number, _⟩) ← content.tagged? | none
    return .literal (← number.int64?)
  | "ColumnAlias" => return .aliasRef (← content.text?)
  | "PropertyAccessExp" =>
    let [some source, some column] ← content.fields? ["table_alias", "column"] | none
    return .property (← source.1.text?) (← column.1.text?)
  | "ScalarFnCall" =>
    let [some function, some ⟨args, _⟩] ← content.fields? ["name", "args"] | none
    let ⟨args, _⟩ ← args.items?
    return .call (← function.1.text?) (← Expr.ofValues? args)
  | "WindowFnCall" =>
    let [some function, some ⟨args, _⟩, some ⟨partitionBy, _⟩] ←
      content.fields? ["name", "args", "partition_by"] | none
    let ⟨args, _⟩ ← args.items?
    let ⟨partitionBy, _⟩ ← partitionBy.items?
    return .window (← function.1.text?) (← Expr.ofValues? args) (← Expr.ofValues? partitionBy)
  | "OperatorApplicationExp" =>
    let [some operator, some ⟨operands, _⟩] ← content.fields? ["operator", "operands"] | none
    let ⟨operands, _⟩ ← operands.items?
    return .operation (← Operator.ofValue? operator.1) (← Expr.ofValues? operands)
  | _ => none
termination_by sizeOf value

def Expr.ofValues? (values : List Value) : Option (List Expr) :=
  match values with
  | [] => some []
  | value :: rest => do return (← Expr.ofValue? value) :: (← Expr.ofValues? rest)
termination_by sizeOf values

end

namespace Operation

def toValue (operation : Operation) : Value :=
  object [("operator", operation.operator.toValue),
    ("operands", list (Expr.toValues operation.operands))]

def ofValue? (value : Value) : Option Operation := do
  let [some operator, some operands] ← value.fields? ["operator", "operands"] | none
  return ⟨← Operator.ofValue? operator.1, ← Expr.ofValues? (← operands.1.items?).1⟩

end Operation

namespace SelectItem

def toValue (item : SelectItem) : Value :=
  object [("expression", item.expr.toValue), ("col_alias", ofOption item.aliasName)]

def ofValue? (value : Value) : Option SelectItem := do
  let [some expr, aliasName] ← value.fields? ["expression", "col_alias"] | none
  let aliasName ← match aliasName with
    | some aliasName => aliasName.1.option?
    | none => some none
  return ⟨← Expr.ofValue? expr.1, aliasName⟩

end SelectItem

namespace JoinKind

def toValue : JoinKind → Value
  | fullOuter => text "FullOuter"

def ofValue? (value : Value) : Option JoinKind :=
  match value.case? with
  | some "FullOuter" => some fullOuter
  | _ => none

end JoinKind

namespace SortOrder

def toValue : SortOrder → Value
  | ascending => text "Asc"
  | descending => text "Desc"

def ofValue? (value : Value) : Option SortOrder :=
  match value.case? with
  | some "Asc" => some ascending
  | some "Desc" => some descending
  | _ => none

end SortOrder

namespace OrderItem

def toValue (item : OrderItem) : Value :=
  object [("expression", item.expr.toValue), ("order", item.order.toValue)]

def ofValue? (value : Value) : Option OrderItem := do
  let [some expr, some order] ← value.fields? ["expression", "order"] | none
  return ⟨← Expr.ofValue? expr.1, ← SortOrder.ofValue? order.1⟩

end OrderItem

mutual

def Statement.toValue : Statement → Value
  | ⟨items, source, joins, orderBy⟩ =>
    object [("select", list (items.map SelectItem.toValue)), ("from", source.toValue),
      ("joins", list (Join.toValues joins)), ("order_by", list (orderBy.map OrderItem.toValue))]

def Source.toValue : Source → Value
  | .table name aliasName =>
    object [("Table", object [("name", text name), ("alias", text aliasName)])]
  | .subquery query aliasName =>
    object [("Subquery", object [("query", query.toValue), ("alias", text aliasName)])]

def Join.toValue : Join → Value
  | ⟨source, conditions, kind⟩ =>
    object [("source", source.toValue), ("joining_on", list (conditions.map Operation.toValue)),
      ("join_type", kind.toValue)]

def Join.toValues : List Join → List Value
  | [] => []
  | join :: rest => join.toValue :: Join.toValues rest

end

mutual

def Statement.ofValue? (value : Value) : Option Statement := do
  let [some items, some ⟨source, _⟩, some ⟨joins, _⟩, some orderBy] ←
    value.fields? ["select", "from", "joins", "order_by"] | none
  let items ← (← items.1.items?).1.mapM SelectItem.ofValue?
  let source ← Source.ofValue? source
  let ⟨joins, _⟩ ← joins.items?
  return ⟨items, source, ← Join.ofValues? joins,
    ← (← orderBy.1.items?).1.mapM OrderItem.ofValue?⟩
termination_by sizeOf value

def Source.ofValue? (value : Value) : Option Source := do
  let (tag, ⟨content, _⟩) ← value.tagged?
  let .record _ := content | none
  match tag with
  | "Table" =>
    let [some name, some aliasName] ← content.fields? ["name", "alias"] | none
    return .table (← name.1.text?) (← aliasName.1.text?)
  | "Subquery" =>
    let [some ⟨query, _⟩, some aliasName] ← content.fields? ["query", "alias"] | none
    return .subquery (← Statement.ofValue? query) (← aliasName.1.text?)
  | _ => none
termination_by sizeOf value

def Join.ofValue? (value : Value) : Option Join := do
  let [some ⟨source, _⟩, some conditions, some kind] ←
    value.fields? ["source", "joining_on", "join_type"] | none
  return ⟨← Source.ofValue? source, ← (← conditions.1.items?).1.mapM Operation.ofValue?,
    ← JoinKind.ofValue? kind.1⟩
termination_by sizeOf value

def Join.ofValues? (values : List Value) : Option (List Join) :=
  match values with
  | [] => some []
  | value :: rest => do return (← Join.ofValue? value) :: (← Join.ofValues? rest)
termination_by sizeOf values

end

end FlatAggregate
