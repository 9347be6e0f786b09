import FlatAggregate.Proofs.Generator.Generation
import FlatAggregate.Proofs.Lowering.Placement

/-!
# The shape of generated statements

The statement of an accepted aggregate reads the table of every entity once. The entities come in
pre-order, which is the order of the tables in the join tree and so that in which the tables are
entered and numbered.

What holds of the query of an assembled draft is said here with the entities of a schema in place of
the tables of the draft.
-/

namespace FlatAggregate

variable {aggregate : Aggregate} {schema : Schema}

theorem Schema.mapM_tableName (h : ofAggregate aggregate = .ok schema) :
    aggregate.joinTree.tables.mapM schema.names.tableName =
      .ok (schema.entities.map Mapping.table) := by
  have htables : aggregate.joinTree.tables = schema.entities.map Mapping.path := by
    rw [JoinTree.tables, Aggregate.specs_joinTree h, List.map_map]
    exact List.map_congr_left fun mapping _ => mapping.table_spec
  have hnames : ∀ mapping ∈ schema.entities,
      schema.names.tableName mapping.path = .ok mapping.table := fun mapping hm => by
    change (·.table) <$> schema.known mapping.path = _
    rw [known_of_mem h hm]
    rfl
  rw [htables]
  apply mapM_eq_ok_of_forall₂
  rw [List.forall₂_map_left_iff, List.forall₂_map_right_iff, List.forall₂_same]
  exact hnames

namespace Generator

/-- Whatever the settings, every accepted aggregate has a statement, and that reads the table of
each entity once: the tables among the sources of all levels are those of the entities, the k-th of
them under the k-th table alias; no two sources have the same alias; there is one join less than
there are entities, each a full outer join on two conditions or more; and the outermost level alone
is ordered, by the aliases of two of its columns, if there is more than one entity. -/
theorem exists_statement_scansOnce (h : Schema.ofAggregate aggregate = .ok schema)
    (generator : Generator) :
    ∃ statement, generator.statement schema = .ok statement ∧
      statement.ScansOnce generator.settings (schema.entities.map Mapping.table) := by
  obtain ⟨draft, plan, hdraft, hplan, hschema⟩ := Schema.exists_plan h
  have hknows : schema.names.Knows (schema.root.spec :: schema.additions.map Addition.spec) :=
    schema.specs_additions ▸ schema.knows_entities
  have hnames := Schema.mapM_tableName h
  rw [← Aggregate.joinTree_ofAdditions h] at hnames
  obtain ⟨statement, book, hstatement, hscans⟩ :=
    Draft.exists_query_scansOnce hdraft hplan hknows hnames generator.settings
  exact ⟨statement, statement_of_query hschema hstatement, hscans⟩

/-- An order with its customer, and lines that have notes. -/
theorem exists_statement_scansOnce_order :
    let line : Entity :=
      { table := "line", idColumn := some "id", columns := ["amount"]
        children := [{ property := "notes", entity := { table := "note", columns := ["text"] } }] }
    let aggregate : Aggregate := ⟨"order",
      { table := "orders", idColumn := some "id"
        children := [{ property := "customer", multiplicity := .single,
                       entity := { table := "customer", columns := ["name"] } },
          { property := "lines", keyColumn := some "position", entity := line }] }⟩
    let generator : Generator := { settings := { hints := false } }
    ∃ schema, Schema.ofAggregate aggregate = .ok schema ∧
      ∃ statement, generator.statement schema = .ok statement ∧
        statement.ScansOnce generator.settings ["orders", "customer", "line", "note"] := by
  intro line aggregate generator
  let orders : Mapping := ⟨.root, "orders", some "id", [], none, none, .single⟩
  let schema : Schema := (Schema.start "order" orders).pushAll
    [⟨⟨"customer"⟩, "customer", none, ["name"], none, some "orders_id", .single⟩,
      ⟨⟨"lines"⟩, "line", some "id", ["amount"], some "position", some "orders_id", .multiple⟩,
      ⟨⟨"lines.notes"⟩, "note", none, ["text"], none, some "line_id", .multiple⟩]
  have h : Schema.ofAggregate aggregate = .ok schema := by decide
  exact ⟨schema, h, exists_statement_scansOnce h generator⟩

end Generator

end FlatAggregate
