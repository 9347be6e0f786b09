import FlatAggregate.Alias.Text
import FlatAggregate.Naming.Source
import FlatAggregate.Settings.Basic

/-!
# Alias books

An alias book gives every table, column and select of a plan an alias once, and the same alias ever
after. Some keys have an alias of their own: they take the next number of their kind. Others
delegate: a scan is named like its table, a base column like its token, a derived column like the
column that it shows again. The book holds an entry for either sort of key.

`Counters` holds the last number given out of each kind. Programs that ask for aliases run in
`Aliasing`: `table`, `token`, `select` and `column` ask for the alias of one thing, `aliasOf` for
that of any key, and each of them goes through `memo`, so a key that has an alias keeps it. `issue`
is the only one that counts.
-/

namespace FlatAggregate

inductive AliasKey (T C : Type) where
  | table (table : T)
  | token (column : C)
  | select (select : SelectId)
  | column (column : ColumnId)
  deriving DecidableEq, Repr

namespace Alias

structure Counters where
  table : Nat := 0
  column : Nat := 0
  foreignKey : Nat := 0
  view : Nat := 0
  join : Nat := 0
  rowNumber : Nat := 0
  greatest : Nat := 0
  maxOver : Nat := 0
  deriving DecidableEq, Repr

def Counters.get (counters : Counters) : Kind → Nat
  | .table => counters.table
  | .column => counters.column
  | .foreignKey => counters.foreignKey
  | .view => counters.view
  | .join => counters.join
  | .rowNumber => counters.rowNumber
  | .greatest => counters.greatest
  | .maxOver => counters.maxOver

def Counters.next (counters : Counters) : Kind → Counters
  | .table => { counters with table := counters.table + 1 }
  | .column => { counters with column := counters.column + 1 }
  | .foreignKey => { counters with foreignKey := counters.foreignKey + 1 }
  | .view => { counters with view := counters.view + 1 }
  | .join => { counters with join := counters.join + 1 }
  | .rowNumber => { counters with rowNumber := counters.rowNumber + 1 }
  | .greatest => { counters with greatest := counters.greatest + 1 }
  | .maxOver => { counters with maxOver := counters.maxOver + 1 }

@[simp] theorem Counters.get_next (counters : Counters) (kind other : Kind) :
    (counters.next kind).get other =
      if other = kind then counters.get kind + 1 else counters.get other := by
  cases kind <;> cases other <;> rfl

end Alias

structure AliasBook (T C : Type) where
  settings : Settings := {}
  entries : List (AliasKey T C × String) := []
  counters : Alias.Counters := {}

/-- A computation that may ask for aliases. Aliases given out before a failure stay. -/
abbrev Aliasing (T C : Type) := ExceptT NamingError (StateM (AliasBook T C))

namespace AliasBook

variable {T C : Type}

def find? [DecidableEq T] [DecidableEq C] (book : AliasBook T C) (key : AliasKey T C) :
    Option String :=
  book.entries.lookup key

def size (book : AliasBook T C) : Nat := book.entries.length

def isEmpty (book : AliasBook T C) : Bool := book.entries.isEmpty

def enter (book : AliasBook T C) (key : AliasKey T C) (aliasName : String) : AliasBook T C :=
  { book with entries := book.entries ++ [(key, aliasName)] }

/-- The next alias of a kind, with the hint of `name` if hints are on. -/
def issue (book : AliasBook T C) (kind : Alias.Kind) (name : String) : String × AliasBook T C :=
  let hint := if book.settings.hints then Alias.hint name book.settings.maxHintLength else ""
  let counters := book.counters.next kind
  (Alias.text kind.letters (counters.get kind) book.settings.counterWidth hint,
    { book with counters })

end AliasBook

namespace Aliasing

variable {T C : Type} [DecidableEq T] [DecidableEq C]

/-- The alias of a key: the one it has, else the one that `make` gives, entered in the book. -/
def memo (key : AliasKey T C) (make : Aliasing T C String) : Aliasing T C String := do
  match (← get).find? key with
  | some aliasName => return aliasName
  | none =>
    let aliasName ← make
    modify (·.enter key aliasName)
    return aliasName

def issue (kind : Alias.Kind) (name : String) : Aliasing T C String := do
  let (aliasName, book) := (← get).issue kind name
  set book
  return aliasName

variable (names : NameSource T C) (plan : Plan T C)

def table (table : T) : Aliasing T C String :=
  memo (.table table) do issue .table (← names.tableName table)

def token (column : C) : Aliasing T C String :=
  memo (.token column) (issue .column (names.columnName column))

def select (select : SelectId) : Aliasing T C String :=
  memo (.select select) <|
    match plan.selects[select]? with
    | some (.scan scan) => table names scan.table
    | some (.view _ _) => issue .view ""
    | some (.join _) => issue .join ""
    | none => throw (.unknownTable (toString select))

def column (column : ColumnId) : Aliasing T C String :=
  memo (.column column) <|
    match plan.columns[column]? with
    | some (.base token) => Aliasing.token names token
    | some (.derived source) =>
      earlier column (fun p _ => Aliasing.column p)
        (throw (.columnNotInScope (.column column))) source
    | some (.foreignKey _ owner) => do issue .foreignKey (← names.storedName plan column owner)
    | some (.rowNumber _) => issue .rowNumber ""
    | some (.greatest _ _ .identity) => issue .greatest "FK"
    | some (.greatest _ _ .rowNumber) => issue .greatest "RN"
    | some (.maxOver _ _) => issue .maxOver ""
    | some (.literal value) => throw (.noAlias value)
    | none => throw (.columnNotInScope (.column column))
termination_by column

def aliasOf : AliasKey T C → Aliasing T C String
  | .table t => table names t
  | .token c => token names c
  | .select s => select names plan s
  | .column c => column names plan c

end Aliasing

end FlatAggregate
