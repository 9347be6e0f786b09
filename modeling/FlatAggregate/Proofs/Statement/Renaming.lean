import FlatAggregate.Statement.Basic

/-!
# Renaming aliases

A renaming of aliases reaches all places where a statement has an alias: those of sources and items,
the source part of references, the names in an order, and, where a reference goes to an inline
query, its column part too, for the columns of an inline query are named by aliases. The names of
tables and of their columns, literals and functions stay.

The recursion goes along the statement. At every level the aliases of its inline queries are passed
down, as they decide which column parts are renamed.
-/

namespace FlatAggregate

def Source.queryAlias? : Source → Option String
  | table _ _ => none
  | subquery _ aliasName => some aliasName

section Renaming

variable (respell : String → String) (queries : List String)

mutual

/-- The expression with renamed aliases, at a level with the inline queries `queries`. -/
def Expr.rename : Expr → Expr
  | .literal value => .literal value
  | .aliasRef name => .aliasRef (respell name)
  | .property source column =>
    .property (respell source) (if source ∈ queries then respell column else column)
  | .call function args => .call function (Expr.renameAll args)
  | .window function args partitionBy =>
    .window function (Expr.renameAll args) (Expr.renameAll partitionBy)
  | .operation operator operands => .operation operator (Expr.renameAll operands)

def Expr.renameAll : List Expr → List Expr
  | [] => []
  | expr :: rest => expr.rename :: Expr.renameAll rest

end

@[simp] theorem Expr.renameAll_eq_map (exprs : List Expr) :
    Expr.renameAll respell queries exprs = exprs.map (Expr.rename respell queries) := by
  induction exprs with
  | nil => rfl
  | cons expr rest ih => simp [Expr.renameAll, ih]

def Operation.rename (operation : Operation) : Operation :=
  ⟨operation.operator, operation.operands.map (Expr.rename respell queries)⟩

def SelectItem.rename (item : SelectItem) : SelectItem :=
  ⟨item.expr.rename respell queries, item.aliasName.map respell⟩

def OrderItem.rename (item : OrderItem) : OrderItem :=
  ⟨item.expr.rename respell queries, item.order⟩

mutual

def Statement.rename : Statement → Statement
  | ⟨items, source, joins, orderBy⟩ =>
    let queries := source.queryAlias?.toList ++ joins.filterMap (·.source.queryAlias?)
    ⟨items.map (SelectItem.rename respell queries), source.rename, Join.renameAll queries joins,
      orderBy.map (OrderItem.rename respell queries)⟩

def Source.rename : Source → Source
  | .table name aliasName => .table name (respell aliasName)
  | .subquery query aliasName => .subquery query.rename (respell aliasName)

def Join.renameAll (queries : List String) : List Join → List Join
  | [] => []
  | ⟨source, conditions, kind⟩ :: rest =>
    ⟨source.rename, conditions.map (Operation.rename respell queries), kind⟩ ::
      Join.renameAll queries rest

end

end Renaming

end FlatAggregate
