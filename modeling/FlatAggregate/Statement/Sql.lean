import FlatAggregate.Statement.Basic

/-!
# ANSI SQL text

Keywords are in upper case and names are written as they are, without quotes. A dialect that needs
quotes, or lacks `FULL OUTER JOIN`, writes the statement itself.

Every type has its `sql`. The parts that may be missing, joins and the order, are clauses that bring
the blank in front of them; so the text of a statement is that of its parts put together. A query in
a source stands in parentheses, with its alias behind it.
-/

namespace FlatAggregate

def Operator.sql : Operator → String
  | equal => " = "

def SortOrder.sql : SortOrder → String
  | ascending => "ASC"
  | descending => "DESC"

def JoinKind.sql : JoinKind → String
  | fullOuter => "FULL OUTER JOIN"

mutual

def Expr.sql : Expr → String
  | .literal value => toString value.toInt
  | .aliasRef name => name
  | .property source column => source ++ "." ++ column
  | .call function args => function ++ "(" ++ ", ".intercalate (Expr.sqls args) ++ ")"
  | .window function args [] => function ++ "(" ++ ", ".intercalate (Expr.sqls args) ++ ") OVER ()"
  | .window function args (first :: rest) =>
    function ++ "(" ++ ", ".intercalate (Expr.sqls args) ++ ") OVER (PARTITION BY " ++
      ", ".intercalate (first.sql :: Expr.sqls rest) ++ ")"
  | .operation operator operands => operator.sql.intercalate (Expr.sqls operands)

def Expr.sqls : List Expr → List String
  | [] => []
  | expr :: rest => expr.sql :: Expr.sqls rest

end

@[simp] theorem Expr.sqls_eq_map (exprs : List Expr) : Expr.sqls exprs = exprs.map Expr.sql := by
  induction exprs with
  | nil => rfl
  | cons expr rest ih => simp [Expr.sqls, ih]

def Operation.sql (operation : Operation) : String :=
  operation.operator.sql.intercalate (operation.operands.map Expr.sql)

def SelectItem.sql (item : SelectItem) : String :=
  match item.aliasName with
  | some aliasName => item.expr.sql ++ " AS " ++ aliasName
  | none => item.expr.sql

def OrderItem.sql (item : OrderItem) : String :=
  item.expr.sql ++ " " ++ item.order.sql

/-- The text of an order with a blank in front; no order has no text. -/
def OrderItem.clause : List OrderItem → String
  | [] => ""
  | items => " ORDER BY " ++ ", ".intercalate (items.map OrderItem.sql)

mutual

def Statement.sql : Statement → String
  | ⟨items, source, joins, orderBy⟩ =>
    "SELECT " ++ ", ".intercalate (items.map SelectItem.sql) ++ " FROM " ++ source.sql ++
      Join.clauses joins ++ OrderItem.clause orderBy

def Source.sql : Source → String
  | .table name aliasName => name ++ " AS " ++ aliasName
  | .subquery query aliasName => "(" ++ query.sql ++ ") AS " ++ aliasName

def Join.clause : Join → String
  | ⟨source, conditions, kind⟩ =>
    " " ++ kind.sql ++ " " ++ source.sql ++ " ON " ++
      " AND ".intercalate (conditions.map Operation.sql)

def Join.clauses : List Join → String
  | [] => ""
  | join :: rest => join.clause ++ Join.clauses rest

end

end FlatAggregate
