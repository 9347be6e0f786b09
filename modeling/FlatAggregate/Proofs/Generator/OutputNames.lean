import FlatAggregate.Generator.Basic
import FlatAggregate.Proofs.Aggregate.Entities
import FlatAggregate.Proofs.Lowering.OutputNames

/-!
# The output names of generated statements

Every schema of an accepted aggregate has a statement. A column of an entity has one alias, however
often the entity declares it, and its table has a column for every role. So the output names of a
statement are distinct at all levels exactly when no entity declares a column in two roles.

An entity that lists its id among the plain columns is accepted, and its statement has the output
name of that column twice (`not_nodup_outputNames_of_listed_id`).
-/

namespace FlatAggregate.Generator

variable {aggregate : Aggregate} {schema : Schema}

/-- The statement of a schema is the query of its plan, written from an empty book. -/
theorem statement_of_query {generator : Generator} {plan : Plan EntityPath ColumnRef}
    {statement : Statement} {book : AliasBook EntityPath ColumnRef}
    (hplan : schema.plan = .ok plan) (h : (Lowering.query schema.names plan).on
      { settings := generator.settings } = (.ok statement, book)) :
    generator.statement schema = .ok statement := by
  rw [Generator.statement, hplan]
  exact congrArg (fun answer => answer.1.mapError GeneratorError.naming) h

/-- The statement of an accepted aggregate has distinct output names at all of its levels if and
only if the tokens of its tables are distinct. -/
theorem exists_statement_nodup_iff (h : Schema.ofAggregate aggregate = .ok schema)
    (generator : Generator) :
    ∃ statement, generator.statement schema = .ok statement ∧
      ((∀ level ∈ statement.levels, level.outputNames.Nodup) ↔
        ((schema.entities.map Mapping.spec).flatMap TableSpec.tokens).Nodup) := by
  obtain ⟨draft, plan, hdraft, hplan, hschema⟩ := Schema.exists_plan h
  have hspecs := schema.specs_additions
  have hknows : schema.names.Knows (schema.root.spec :: schema.additions.map Addition.spec) :=
    hspecs ▸ schema.knows_entities
  obtain ⟨statement, book, hstatement, hiff⟩ :=
    Draft.exists_query_nodup_iff hdraft hplan hknows generator.settings
  exact ⟨statement, statement_of_query hschema hstatement, hspecs ▸ hiff⟩

theorem exists_query (h : Schema.ofAggregate aggregate = .ok schema) (generator : Generator) :
    ∃ query, generator.query schema = .ok query := by
  obtain ⟨statement, hstatement, -⟩ := exists_statement_nodup_iff h generator
  refine ⟨⟨schema.name, statement, statement.sql⟩, ?_⟩
  rw [Generator.query, hstatement]
  rfl

/-- Whatever the settings, every accepted aggregate has a statement, and its output names are
distinct at all levels if and only if no entity declares a column in two roles. -/
theorem nodup_outputNames_iff (h : Schema.ofAggregate aggregate = .ok schema)
    (generator : Generator) :
    ∃ statement, generator.statement schema = .ok statement ∧
      ((∀ level ∈ statement.levels, level.outputNames.Nodup) ↔
        ∀ mapping ∈ schema.entities, mapping.RolesDistinct) := by
  obtain ⟨statement, hstatement, hiff⟩ := exists_statement_nodup_iff h generator
  exact ⟨statement, hstatement, hiff.trans (Schema.nodup_tokens_iff h)⟩

/-- A person with addresses, each of them at a position. -/
theorem nodup_outputNames_iff_person :
    let aggregate : Aggregate := ⟨"person",
      { table := "person", idColumn := some "id", columns := ["name"]
        children := [{ property := "addresses", keyColumn := some "position",
                       entity := { table := "address", columns := ["street", "city"] } }] }⟩
    let person : Mapping := ⟨.root, "person", some "id", ["name"], none, none, .single⟩
    let schema : Schema := (Schema.start "person" person).push
      ⟨⟨"addresses"⟩, "address", none, ["street", "city"], some "position", some "person_id",
        .multiple⟩
    Schema.ofAggregate aggregate = .ok schema ∧
      (∀ mapping ∈ schema.entities, mapping.RolesDistinct) ∧
      ∃ statement, ({} : Generator).statement schema = .ok statement ∧
        ∀ level ∈ statement.levels, level.outputNames.Nodup := by
  intro aggregate person schema
  have h : Schema.ofAggregate aggregate = .ok schema := by decide
  have hroles : ∀ mapping ∈ schema.entities, mapping.RolesDistinct := by decide
  obtain ⟨statement, hstatement, hiff⟩ := nodup_outputNames_iff h {}
  exact ⟨h, hroles, statement, hstatement, hiff.mpr hroles⟩

/-- A person with its id listed among the plain columns is accepted, but the statement has one
output name twice. -/
theorem not_nodup_outputNames_of_listed_id :
    let aggregate : Aggregate := ⟨"person",
      { table := "person", idColumn := some "id", columns := ["id", "name"] }⟩
    let schema : Schema :=
      .start "person" ⟨.root, "person", some "id", ["id", "name"], none, none, .single⟩
    Schema.ofAggregate aggregate = .ok schema ∧
      ∃ statement, ({} : Generator).statement schema = .ok statement ∧
        ¬ ∀ level ∈ statement.levels, level.outputNames.Nodup := by
  intro aggregate schema
  have h : Schema.ofAggregate aggregate = .ok schema := by decide
  obtain ⟨statement, hstatement, hiff⟩ := exists_statement_nodup_iff h {}
  refine ⟨h, statement, hstatement, fun hnodup => ?_⟩
  have hrepeated : ¬ ((schema.entities.map Mapping.spec).flatMap TableSpec.tokens).Nodup := by
    decide
  exact hrepeated (hiff.mp hnodup)

end FlatAggregate.Generator
