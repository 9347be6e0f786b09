import FlatAggregate.Aggregate.Schema
import FlatAggregate.Plan.Lowering
import FlatAggregate.Statement.Sql

/-!
# Generating queries

A schema goes in and the statement that loads every instance of its aggregate comes out: the plan
of the schema, lowered with the names of the schema and a fresh alias book.

A `GeneratedQuery` holds the name of the aggregate, the statement and its SQL text. A `Generator` is
its settings, and `checked` makes one of settings that are in range. A `GeneratorError` says what
failed: the plan of the schema, a name, or the settings.
-/

namespace FlatAggregate

inductive GeneratorError where
  | schema (error : SchemaError)
  | naming (error : NamingError)
  | settings (outOfRange : List Settings.Ranged)
  deriving DecidableEq, Repr

structure GeneratedQuery where
  aggregate : String
  statement : Statement
  sql : String

structure Generator where
  settings : Settings := {}

namespace Generator

def checked (settings : Settings) : Except (List Settings.Ranged) Generator :=
  match settings.outOfRange with
  | [] => .ok ⟨settings⟩
  | outOfRange => .error outOfRange

theorem checked_eq_ok_iff (settings : Settings) :
    checked settings = .ok ⟨settings⟩ ↔ settings.Valid := by
  unfold checked
  split
  · next h => simp [← Settings.outOfRange_eq_nil_iff, h]
  · next h => simpa [← Settings.outOfRange_eq_nil_iff] using h

def statement (generator : Generator) (schema : Schema) : Except GeneratorError Statement := do
  let plan ← schema.plan.mapError .schema
  let book : AliasBook EntityPath ColumnRef := { settings := generator.settings }
  ((Lowering.query schema.names plan).run.run book).1.mapError .naming

def query (generator : Generator) (schema : Schema) : Except GeneratorError GeneratedQuery := do
  let statement ← generator.statement schema
  return ⟨schema.name, statement, statement.sql⟩

end Generator

end FlatAggregate
