import FlatAggregate.Statement.Basic
import FlatAggregate.Text.Quoted

/-!
# Listings of statements

A listing shows the parts of a statement one to a line: the items with their structure spelled out,
the sources by their aliases. It is for reading only; inline queries are not shown.

`Expr.listing` spells out an expression as a term: `wrapped` is an alternative with its content and
`fields` a structure with its fields by name. Texts stand in quotes as `Text.quoted` writes them.
-/

namespace FlatAggregate

namespace Listing

def fields (name : String) (fields : List (String × String)) : String :=
  name ++ " \x7b " ++ ", ".intercalate (fields.map fun (field, value) => field ++ ": " ++ value) ++
    " \x7d"

def wrapped (name content : String) : String := name ++ "(" ++ content ++ ")"

def bracketed (items : List String) : String := "[" ++ ", ".intercalate items ++ "]"

def named (sort name : String) : String := wrapped sort (Text.quoted name)

end Listing

open Listing

def Operator.listing : Operator → String
  | equal => "Equal"

def SortOrder.listing : SortOrder → String
  | ascending => "Asc"
  | descending => "Desc"

def JoinKind.listing : JoinKind → String
  | fullOuter => "FullOuter"

mutual

def Expr.listing : Expr → String
  | .literal value => wrapped "Literal" (wrapped "Integer" (toString value.toInt))
  | .aliasRef name => wrapped "ColumnAlias" (named "ColumnAlias" name)
  | .property source column =>
    wrapped "PropertyAccessExp" <| fields "PropertyAccess"
      [("table_alias", named "TableAlias" source), ("column", named "Column" column)]
  | .call function args =>
    wrapped "ScalarFnCall" <| fields "ScalarFnCall"
      [("name", Text.quoted function), ("args", bracketed (Expr.listings args))]
  | .window function args partitionBy =>
    wrapped "WindowFnCall" <| fields "WindowFnCall"
      [("name", Text.quoted function), ("args", bracketed (Expr.listings args)),
        ("partition_by", bracketed (Expr.listings partitionBy))]
  | .operation operator operands =>
    wrapped "OperatorApplicationExp" <| fields "OperatorApplication"
      [("operator", operator.listing), ("operands", bracketed (Expr.listings operands))]

def Expr.listings : List Expr → List String
  | [] => []
  | expr :: rest => expr.listing :: Expr.listings rest

end

def SelectItem.listing (item : SelectItem) : String :=
  fields "SelectItem"
    [("expression", item.expr.listing),
      ("col_alias",
        match item.aliasName with
        | some aliasName => wrapped "Some" (named "ColumnAlias" aliasName)
        | none => "None")]

/-- The line of a join: its kind, its alias and the number of its conditions. -/
def Join.listing (join : Join) : String :=
  join.kind.listing ++ " " ++ join.source.aliasName ++ " ON " ++ toString join.conditions.length ++
    " conditions"

def OrderItem.listing (item : OrderItem) : String :=
  item.expr.listing ++ " " ++ item.order.listing

def Statement.listing (statement : Statement) : String :=
  let part (title : String) (lines : List String) : List String :=
    "" :: (title ++ ":") :: lines.map ("  " ++ ·)
  let lines :=
    ["---- SqlSelect ----"] ++
      part "SELECT" (statement.items.map SelectItem.listing) ++
      part "FROM" [statement.source.aliasName] ++
      part "JOINS" (statement.joins.map Join.listing) ++
      part "ORDER BY" (statement.orderBy.map OrderItem.listing) ++
      ["-------------------"]
  String.join (lines.map (· ++ "\n"))

end FlatAggregate
