import FlatAggregate.Proofs.Aggregate.JoinTrees
import FlatAggregate.Proofs.Generator.OutputNames
import FlatAggregate.Proofs.Plan.ReadBack

/-!
# Generation from accepted aggregates

Nothing fails on the way from an accepted aggregate to its query. The checks of the schema see to
it that every entity finds its parent, that no entity comes twice and that a root with children has
an id; the plan that is built from it has the join tree of the definition, and its names are all
known.

This joins the two halves: the plan, from the checks of the schema, and its query, from the names
that a schema has for its own entities. Settings only spell aliases, so no setting makes it fail.
-/

namespace FlatAggregate

variable {aggregate : Aggregate} {schema : Schema}

/-- The plan of an accepted aggregate has its join tree, and the scans of its entities in order. -/
theorem Schema.exists_plan_tree (h : ofAggregate aggregate = .ok schema) :
    ∃ plan, schema.plan = .ok plan ∧ plan.tree? plan.root = some aggregate.joinTree ∧
      plan.scans.map plan.spec? = schema.entities.map fun mapping => some mapping.spec := by
  obtain ⟨draft, plan, hdraft, hplan, hschema⟩ := exists_plan h
  refine ⟨plan, hschema, ?_, ?_⟩
  · rw [Draft.tree?_of_assemble hdraft hplan, Aggregate.joinTree_ofAdditions h]
  · rw [Draft.map_spec?_scans hdraft hplan, Aggregate.joinTree_ofAdditions h,
      Aggregate.specs_joinTree h, List.map_map]
    rfl

namespace Generator

/-- Every accepted aggregate has a plan and, whatever the settings, a query. The plan has the join
tree of the definition, and a scan for every entity, with the id of the entity, each of its plain
columns once, and its key. -/
theorem exists_plan_and_query (h : Schema.ofAggregate aggregate = .ok schema)
    (generator : Generator) :
    (∃ plan, schema.plan = .ok plan ∧ plan.tree? plan.root = some aggregate.joinTree ∧
      plan.scans.map plan.spec? = schema.entities.map fun mapping =>
        some { table := mapping.path, id := mapping.id, columns := mapping.refs.eraseDups,
               key := mapping.key }) ∧
    ∃ statement : Statement,
      generator.query schema = .ok ⟨schema.name, statement, statement.sql⟩ := by
  obtain ⟨plan, hplan, htree, hscans⟩ := Schema.exists_plan_tree h
  obtain ⟨statement, hstatement, -⟩ := exists_statement_nodup_iff h generator
  refine ⟨⟨plan, hplan, htree, ?_⟩, statement, ?_⟩
  · rw [hscans]
    exact List.map_congr_left fun mapping _ => congrArg some mapping.spec_eq
  · rw [query, hstatement]
    rfl

/-- An order with its customer, and lines that have notes; a column of the lines is listed twice. -/
theorem exists_plan_and_query_order :
    let line : Entity :=
      { table := "line", idColumn := some "id", columns := ["amount", "amount"]
        children := [{ property := "notes", entity := { table := "note", columns := ["text"] } }] }
    let aggregate : Aggregate := ⟨"order",
      { table := "orders", idColumn := some "id"
        children := [{ property := "customer", multiplicity := .single,
                       entity := { table := "customer", columns := ["name"] } },
          { property := "lines", keyColumn := some "position", entity := line }] }⟩
    ∃ schema, Schema.ofAggregate aggregate = .ok schema ∧
      (∃ plan, schema.plan = .ok plan ∧ plan.tree? plan.root = some aggregate.joinTree ∧
        plan.scans.map plan.spec? = schema.entities.map fun mapping =>
          some { table := mapping.path, id := mapping.id, columns := mapping.refs.eraseDups,
                 key := mapping.key }) ∧
      ∃ statement : Statement,
        ({ settings := { counterWidth := 9 } } : Generator).query schema =
          .ok ⟨"order", statement, statement.sql⟩ := by
  intro line aggregate
  let orders : Mapping := ⟨.root, "orders", some "id", [], none, none, .single⟩
  let schema : Schema := (Schema.start "order" orders).pushAll
    [⟨⟨"customer"⟩, "customer", none, ["name"], none, some "orders_id", .single⟩,
      ⟨⟨"lines"⟩, "line", some "id", ["amount", "amount"], some "position", some "orders_id",
        .multiple⟩,
      ⟨⟨"lines.notes"⟩, "note", none, ["text"], none, some "line_id", .multiple⟩]
  have h : Schema.ofAggregate aggregate = .ok schema := by decide
  exact ⟨schema, h, exists_plan_and_query h _⟩

end Generator

end FlatAggregate
