import FlatAggregate.Proofs.Rows.Operators
import FlatAggregate.Statement.Basic

/-!
# The evaluation of statements

A statement is evaluated on the rows of the tables. Names are resolved before any row is read: a
column name has to mean one column of one source, and the name that an order uses one column of the
select list. A statement with another name in it has no result, and neither has one with a function
other than those of flat queries.

The rows of a level are joined first. Then every item of the select list is read off them; a window
reads all rows of its level.

`Statement.eval` gives a result with named columns, `Source.eval` the level of one source, and
`Join.evalAll` joins further sources to a level. A table offers all names that one asks for, an
inline query those of its columns that have a name of their own. `Expr.reading` reads a scalar off a
row, `Expr.itemReading` also a window; the functions are `GREATEST`, `ROW_NUMBER` and `MAX`. The
rows are sorted by the order in the end, with absent values last.
-/

namespace FlatAggregate

abbrev SqlDatabase (V : Type) := String → List (String → Option V)

structure SqlResult (V : Type) where
  names : List String
  rows : List (List (Option V))

def SqlResult.valueOf {V : Type} (names : List String) (row : List (Option V)) (name : String) :
    Option V :=
  ((names.zip row).lookup name).join

/-- A row of a level: the values of its sources, by their aliases and the names of their columns. -/
abbrev LevelRow (V : Type) := String → String → Option V

/-- The aliases of sources, and which column names mean one column of the source. -/
abbrev Sources := List (String × (String → Bool))

/-- Whether a column name means one column of one source. -/
def Sources.resolve (sources : Sources) (source column : String) : Bool :=
  (sources.filter (·.1 = source)).map (·.2 column) = [true]

structure Level (V : Type) where
  sources : Sources
  rows : List (LevelRow V)

variable {V : Type}

def LevelRow.single (aliasName : String) (row : String → Option V) : LevelRow V :=
  fun source column => if source = aliasName then row column else none

def LevelRow.merge (pair : Option (LevelRow V) × Option (LevelRow V)) : LevelRow V :=
  fun source column => (pair.1.bind (· source column)).or (pair.2.bind (· source column))

def Level.single (aliasName : String) (offers : String → Bool)
    (rows : List (String → Option V)) : Level V where
  sources := [(aliasName, offers)]
  rows := rows.map (LevelRow.single aliasName)

theorem SqlResult.valueOf_map {α : Type} {name : α → String} {value : α → Option V}
    {columns : List α} (h : (columns.map name).Nodup) {column : α} (hc : column ∈ columns) :
    valueOf (columns.map name) (columns.map value) (name column) = value column := by
  have hlookup : (columns.map fun c => (name c, value c)).lookup (name column) =
      some (value column) := by
    induction columns with
    | nil => simp at hc
    | cons first rest ih =>
        rw [List.map_cons, List.nodup_cons] at h
        rw [List.map_cons, List.lookup_cons]
        rcases List.mem_cons.mp hc with rfl | hc
        · simp
        · have hne : name column ≠ name first := fun heq =>
            h.1 (heq ▸ List.mem_map_of_mem hc)
          rw [beq_eq_false_iff_ne.mpr hne]
          exact ih h.2 hc
  rw [valueOf, List.zip_map', hlookup, Option.join_some]

variable [Domain V]

mutual

def Expr.reading (sources : Sources) : Expr → Option (LevelRow V → Option V)
  | .literal value => some fun _ => ofNumber value.toInt
  | .property source column =>
    if sources.resolve source column then some fun row => row source column else none
  | .call function args => do
    let values ← Expr.readings sources args
    if function = "GREATEST" then some fun row => greatest (values.map (· row)) else none
  | _ => none

def Expr.readings (sources : Sources) : List Expr → Option (List (LevelRow V → Option V))
  | [] => some []
  | expr :: rest => do return (← expr.reading sources) :: (← Expr.readings sources rest)

end

def Operation.test (sources : Sources) (operation : Operation) : Option (LevelRow V → Bool) :=
  match operation.operator, operation.operands with
  | .equal, [left, right] => do
    let left ← left.reading sources
    let right ← right.reading sources
    some fun row => sameValue (left row) (right row)
  | .equal, _ => none

def Level.join (left right : Level V) (conditions : List Operation) : Option (Level V) := do
  let sources := left.sources ++ right.sources
  let tests ← conditions.mapM (Operation.test sources)
  some ⟨sources, (fullOuter (fun a b => tests.all (· (.merge (some a, some b)))) left.rows
    right.rows).map .merge⟩

/-- How an item of a select list is read, given all rows and a position and row among them. -/
def Expr.itemReading (sources : Sources) :
    Expr → Option (List (LevelRow V) → Nat → LevelRow V → Option V)
  | .window function args partitionBy => do
    let keys ← Expr.readings sources partitionBy
    let key row := keys.map (· row)
    match ← Expr.readings sources args with
    | [] =>
      if function = "ROW_NUMBER" then
        some fun rows position row => ofNumber (rank (rows.map key) position (key row))
      else none
    | [value] =>
      if function = "MAX" then
        some fun rows _ row => spread (rows.map key) (rows.map value) (key row)
      else none
    | _ => none
  | expr => (expr.reading sources).map fun value _ _ row => value row

def OrderItem.name? (names : List String) (item : OrderItem) : Option (String × SortOrder) :=
  match item.expr with
  | .aliasRef name => if names.count name = 1 then some (name, item.order) else none
  | _ => none

/-- Whether a row may stand before another: the first two values that differ decide. Absent values
come last, and first in descending order. -/
def mayPrecede : List (SortOrder × Option V × Option V) → Bool
  | [] => true
  | (order, left, right) :: rest =>
    if left = right then mayPrecede rest
    else
      let less : Option V → Option V → Bool
        | some a, some b => a < b
        | some _, none => true
        | none, _ => false
      match order with
      | .ascending => less left right
      | .descending => less right left

def SqlResult.mayPrecede (names : List String) (order : List (String × SortOrder))
    (row row' : List (Option V)) : Bool :=
  FlatAggregate.mayPrecede <| order.map fun (name, direction) =>
    (direction, valueOf names row name, valueOf names row' name)

mutual

def Statement.eval (db : SqlDatabase V) : Statement → Option (SqlResult V)
  | ⟨items, source, joins, orderBy⟩ => do
    let level ← Join.evalAll db joins (← source.eval db)
    let names ← items.mapM SelectItem.outputName
    let readings ← items.mapM fun item => item.expr.itemReading level.sources
    let rows := level.rows.mapIdx fun position row => readings.map (· level.rows position row)
    let order ← orderBy.mapM (OrderItem.name? names)
    some ⟨names, rows.mergeSort (SqlResult.mayPrecede names order)⟩

def Source.eval (db : SqlDatabase V) : Source → Option (Level V)
  | .table name aliasName => some (.single aliasName (fun _ => true) (db name))
  | .subquery query aliasName => do
    let ⟨names, rows⟩ ← query.eval db
    some (.single aliasName (names.count · = 1) (rows.map (SqlResult.valueOf names)))

def Join.evalAll (db : SqlDatabase V) : List Join → Level V → Option (Level V)
  | [], level => some level
  | ⟨source, conditions, .fullOuter⟩ :: rest, level => do
    Join.evalAll db rest (← level.join (← source.eval db) conditions)

end

end FlatAggregate
