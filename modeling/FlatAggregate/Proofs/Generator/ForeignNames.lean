import FlatAggregate.Proofs.Aggregate.JoinTrees
import FlatAggregate.Proofs.Lowering.UnknownTables

/-!
# Names from another schema

The plan of one schema can be lowered with the names of another one, which may lack some of its
entities. The tables of the plan come in the order of the entities of its schema, so the query fails
with the first of these entities that the other schema lacks, and for no other reason
(`Schema.exists_query_iff`).

`firstMissing` finds that entity. Plans with their tokens as names never fail, since every token has
a text.
-/

namespace FlatAggregate.Schema

variable {aggregate : Aggregate} {schema other : Schema} {mapping : Mapping}

def firstMissing (schema other : Schema) : Option Mapping :=
  schema.entities.find? fun mapping => mapping.path ∉ other.entities.map Mapping.path

theorem firstMissing_eq_none_iff : schema.firstMissing other = none ↔
    ∀ mapping ∈ schema.entities, mapping.path ∈ other.entities.map Mapping.path := by
  simp only [firstMissing, List.find?_eq_none, decide_eq_true_eq, not_not]

theorem not_mem_of_firstMissing (h : schema.firstMissing other = some mapping) :
    mapping.path ∉ other.entities.map Mapping.path := by
  have hfound := List.find?_some h
  exact of_decide_eq_true hfound

theorem lacks_names {path : EntityPath} (h : path ∉ schema.entities.map Mapping.path) :
    schema.names.Lacks path (.unknownTable (toString path)) := by
  have hknown : schema.known path = .error (.unknownTable (toString path)) := by
    rw [known, entity?_eq_none_iff.mpr h]
  constructor
  · change (·.table) <$> schema.known path = _
    rw [hknown]
    rfl
  · intro token
    change schema.foreignKeyName path token = _
    rw [foreignKeyName, hknown]
    rfl

section Assembled

variable {draft : Draft EntityPath ColumnRef} {plan : Plan EntityPath ColumnRef}
  (hdraft : Draft.assemble schema.root.spec schema.additions = .ok draft)
  (hplan : draft.plan = .ok plan)

include hdraft hplan

theorem exists_query_of_firstMissing (hnone : schema.firstMissing other = none)
    (settings : Settings) :
    ∃ statement, ((Lowering.query other.names plan).on { settings }).1 = .ok statement := by
  have hknows : other.names.Knows (schema.root.spec :: schema.additions.map Addition.spec) :=
    schema.specs_additions ▸ knows_names (firstMissing_eq_none_iff.mp hnone)
  exact Draft.exists_query_of_knows hdraft hplan hknows settings

theorem query_eq_error_of_firstMissing (h : ofAggregate aggregate = .ok schema)
    (hfirst : schema.firstMissing other = some mapping) (settings : Settings) :
    ((Lowering.query other.names plan).on { settings }).1 =
      .error (.unknownTable (toString mapping.path)) := by
  have hspecs : (AggregateTree.ofAdditions schema.root.spec schema.additions).joinTree.specs =
      schema.entities.map Mapping.spec := by
    rw [Aggregate.joinTree_ofAdditions h, Aggregate.specs_joinTree h]
  let lacking : TableSpec EntityPath ColumnRef → Bool :=
    fun spec => spec.table ∉ other.entities.map Mapping.path
  have hlate : (AggregateTree.ofAdditions schema.root.spec schema.additions).joinTree.specs.find?
      lacking = some mapping.spec := by
    rw [hspecs, List.find?_map]
    exact congrArg (Option.map Mapping.spec) hfirst
  refine Draft.query_eq_error hdraft hplan hlate (lacks_names (not_mem_of_firstMissing hfirst)) ?_
    settings
  rw [hspecs, List.filter_map]
  refine knows_names fun known hknown => ?_
  have hnot : ¬ lacking known.spec := of_decide_eq_true (List.mem_filter.mp hknown).2
  exact by_contra fun hmissing => hnot (decide_eq_true hmissing)

end Assembled

/-- Whatever the settings, the plan of an accepted aggregate has a query with the names of another
schema if and only if that schema has all of its entities; else the query fails with the first
entity that the other schema lacks. With its tokens as names, the plan of every assembled draft has
a query. -/
theorem exists_query_iff (h : ofAggregate aggregate = .ok schema) (other : Schema)
    (settings : Settings) :
    (∃ plan, schema.plan = .ok plan ∧
      ((∃ statement, ((Lowering.query other.names plan).on { settings }).1 = .ok statement) ↔
        ∀ mapping ∈ schema.entities, mapping.path ∈ other.entities.map Mapping.path) ∧
      ∀ error, ((Lowering.query other.names plan).on { settings }).1 = .error error ↔
        ∃ mapping, schema.firstMissing other = some mapping ∧
          error = .unknownTable (toString mapping.path)) ∧
    ∀ (T C : Type) [DecidableEq T] [DecidableEq C] [ToString T] [ToString C]
      (root : TableSpec T C) (additions : List (Addition T C)) (draft : Draft T C),
      Draft.assemble root additions = .ok draft → ∃ plan, draft.plan = .ok plan ∧
        ∃ statement, ((Lowering.query .ofText plan).on { settings }).1 = .ok statement := by
  constructor
  · obtain ⟨draft, plan, hdraft, hplan, hschema⟩ := exists_plan h
    refine ⟨plan, hschema, ?_⟩
    rw [← firstMissing_eq_none_iff]
    cases hfirst : schema.firstMissing other with
    | none =>
        obtain ⟨statement, hstatement⟩ :=
          exists_query_of_firstMissing hdraft hplan hfirst settings
        simp [hstatement]
    | some mapping =>
        rw [query_eq_error_of_firstMissing hdraft hplan h hfirst settings]
        simp [eq_comm]
  · intro T C _ _ _ _ root additions draft hdraft
    obtain ⟨-, plan, hplan⟩ := Draft.plan_of_assemble hdraft
    have hknows : NameSource.ofText.Knows (root :: additions.map Addition.spec) :=
      ⟨fun _ _ => ⟨_, rfl⟩, fun _ _ _ _ => ⟨_, rfl⟩⟩
    exact ⟨plan, hplan, Draft.exists_query_of_knows hdraft hplan hknows settings⟩

/-- An order with a customer and lines that have notes, lowered with the names of an order that has
lines only; and two tables with their tokens as names. -/
theorem exists_query_iff_order :
    let line : Entity :=
      { table := "line", idColumn := some "id", columns := ["amount"]
        children := [{ property := "notes", entity := { table := "note", columns := ["text"] } }] }
    let aggregate : Aggregate := ⟨"order",
      { table := "orders", idColumn := some "id"
        children := [{ property := "lines", keyColumn := some "position", entity := line },
          { property := "customer", multiplicity := .single,
            entity := { table := "customer", columns := ["name"] } }] }⟩
    let aggregate' : Aggregate := ⟨"order",
      { table := "orders", idColumn := some "id"
        children := [{ property := "lines", keyColumn := some "position",
                       entity := { table := "line", columns := ["amount"] } }] }⟩
    let root : TableSpec Nat Nat := { table := 0, id := some 10 }
    let additions : List (Addition Nat Nat) := [⟨0, .multiple, { table := 1, columns := [11] }⟩]
    (∃ schema other plan, ofAggregate aggregate = .ok schema ∧
      ofAggregate aggregate' = .ok other ∧ schema.plan = .ok plan ∧
      ((Lowering.query other.names plan).on { settings := {} }).1 =
        .error (.unknownTable "lines.notes")) ∧
    ∃ draft plan statement, Draft.assemble root additions = .ok draft ∧ draft.plan = .ok plan ∧
      ((Lowering.query .ofText plan).on { settings := {} }).1 = .ok statement := by
  intro line aggregate aggregate' root additions
  let lines : Mapping :=
    ⟨⟨"lines"⟩, "line", some "id", ["amount"], some "position", some "orders_id", .multiple⟩
  let notes : Mapping := ⟨⟨"lines.notes"⟩, "note", none, ["text"], none, some "line_id", .multiple⟩
  let customer : Mapping :=
    ⟨⟨"customer"⟩, "customer", none, ["name"], none, some "orders_id", .single⟩
  let orders : Mapping := ⟨.root, "orders", some "id", [], none, none, .single⟩
  let schema : Schema := (start "order" orders).pushAll [lines, notes, customer]
  let other : Schema := (start "order" orders).pushAll [{ lines with idColumn := none }]
  have h : ofAggregate aggregate = .ok schema := by decide
  have h' : ofAggregate aggregate' = .ok other := by decide
  have hfirst : schema.firstMissing other = some notes := by decide
  obtain ⟨⟨plan, hplan, -, herror⟩, htext⟩ := exists_query_iff h other {}
  obtain ⟨draft, hdraft⟩ : ∃ draft, Draft.assemble root additions = .ok draft := ⟨_, rfl⟩
  obtain ⟨plan', hplan', statement, hstatement⟩ := htext Nat Nat root additions draft hdraft
  refine ⟨⟨schema, other, plan, h, h', hplan, ?_⟩, draft, plan', statement, hdraft, hplan',
    hstatement⟩
  exact (herror _).mpr ⟨notes, hfirst, by decide⟩

end FlatAggregate.Schema
