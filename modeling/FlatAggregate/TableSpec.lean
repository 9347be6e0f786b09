/-!
# Table specifications

What one table contributes to an aggregate: an optional id column, plain columns in select order,
and an optional key column, the ordinal or map key of a keyed collection. Tables are named by
tokens of a type `T` and columns by tokens of a type `C`.

A specification is made step by step, `withId`, `withColumns` and `withKey`, from the token of the
table; the steps leave the token as it is and may come in any order.
-/

namespace FlatAggregate

/-- One table of an aggregate, before any foreign key is known. -/
structure TableSpec (T C : Type) where
  table : T
  id : Option C := none
  columns : List C := []
  key : Option C := none
  deriving DecidableEq, Repr

namespace TableSpec

variable {T C : Type}

/-- Declares the id column; a later declaration replaces an earlier one. -/
def withId (spec : TableSpec T C) (id : C) : TableSpec T C :=
  { spec with id := some id }

/-- Adds plain columns at the end, leaving out those that are present already. -/
def withColumns [DecidableEq C] (spec : TableSpec T C) (columns : List C) : TableSpec T C :=
  let add (present : List C) (column : C) :=
    if column ∈ present then present else present ++ [column]
  { spec with columns := columns.foldl add spec.columns }

def withKey (spec : TableSpec T C) (key : C) : TableSpec T C :=
  { spec with key := some key }

/-- A table with an id or a key can tell its rows apart without foreign keys. -/
def hasIdentity (spec : TableSpec T C) : Bool :=
  spec.id.isSome || spec.key.isSome

@[simp] theorem withColumns_nil [DecidableEq C] (spec : TableSpec T C) :
    spec.withColumns [] = spec := rfl

theorem withColumns_append [DecidableEq C] (spec : TableSpec T C) (first second : List C) :
    spec.withColumns (first ++ second) = (spec.withColumns first).withColumns second := by
  simp [withColumns]

end TableSpec

end FlatAggregate
