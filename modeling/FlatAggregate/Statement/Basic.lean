/-!
# SQL statements

A statement is a select list, a source, full outer joins and an order. Sources are tables or inline
queries, both under an alias. Names are plain strings, as they will be written.

An `Expr` refers to columns of sources or, in an order, to items of the select list; it calls
functions, and a `window` is a call over the rows with equal values in its partition. An `Operation`
compares expressions. `outputNames` are the names by which a query around a statement knows its
columns: the alias of an item or, without one, the name of the column that the item shows.
-/

namespace FlatAggregate

inductive Operator where
  | equal
  deriving DecidableEq, Repr

inductive Expr where
  | literal (value : Int64)
  /-- The bare name of an item of the select list, as an order uses it. -/
  | aliasRef (name : String)
  /-- The column `column` of the source with the alias `source`. -/
  | property (source column : String)
  | call (function : String) (args : List Expr)
  /-- A function over the rows with equal values in `partitionBy`. -/
  | window (function : String) (args partitionBy : List Expr)
  | operation (operator : Operator) (operands : List Expr)
  deriving Repr

structure Operation where
  operator : Operator
  operands : List Expr
  deriving Repr

def Expr.equals (left right : Expr) : Operation := ⟨.equal, [left, right]⟩

structure SelectItem where
  expr : Expr
  aliasName : Option String
  deriving Repr

/-- The name of an item in the result: its alias, else the name of the column that it shows. -/
def SelectItem.outputName (item : SelectItem) : Option String :=
  match item.aliasName, item.expr with
  | some aliasName, _ => some aliasName
  | none, .property _ column => some column
  | none, .aliasRef name => some name
  | none, _ => none

inductive JoinKind where
  /-- Rows without a partner stay, padded on the other side. -/
  | fullOuter
  deriving DecidableEq, Repr

inductive SortOrder where
  | ascending
  | descending
  deriving DecidableEq, Repr

structure OrderItem where
  expr : Expr
  order : SortOrder
  deriving Repr

mutual

structure Statement where
  items : List SelectItem
  source : Source
  joins : List Join
  orderBy : List OrderItem

inductive Source where
  | table (name aliasName : String)
  | subquery (query : Statement) (aliasName : String)

/-- A further source and the conditions, all of which have to hold, on which it is joined. -/
structure Join where
  source : Source
  conditions : List Operation
  kind : JoinKind

end

def Source.aliasName : Source → String
  | table _ aliasName => aliasName
  | subquery _ aliasName => aliasName

def Statement.outputNames (statement : Statement) : List String :=
  statement.items.filterMap SelectItem.outputName

end FlatAggregate
