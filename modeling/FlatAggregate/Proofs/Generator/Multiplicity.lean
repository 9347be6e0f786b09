import FlatAggregate.Proofs.Builder.Multiplicity
import FlatAggregate.Proofs.Generator.OutputNames
import FlatAggregate.Proofs.Lowering.Multiplicity

/-!
# Multiplicities do not matter

An aggregate and its schema have uniform counterparts too, and generation takes no notice of the
difference (`Generator.query_uniform`). So calls, or aggregates, that differ only in multiplicities
lead to plans that differ only there, with the same texts and the same queries
(`interchangeable_of_uniform_eq`).

`uniform` changes the mappings of a schema, and nothing that an index knows: places go by paths
(`Mapping.Indexed.map`). `Plan.Interchangeable` says that a plan can stand for another one wherever
multiplicities are not asked for.
-/

namespace FlatAggregate

theorem mapError_map {E E' α β : Type} (x : Except E α) (f : α → β) (g : E → E') :
    (x.map f).mapError g = (x.mapError g).map f := by
  cases x <;> rfl

theorem map_bind_congr {E α β γ δ : Type} {x x' : Except E α} {g : α → γ} {f f' : α → Except E β}
    {h : β → δ} (hx : x.map g = x'.map g) (hf : ∀ a a', g a = g a' → (f a).map h = (f' a').map h) :
    (x >>= f).map h = (x' >>= f').map h := by
  cases x with
  | error error =>
      cases x' with
      | error error' =>
          cases hx
          rfl
      | ok a' => cases hx
  | ok a =>
      cases x' with
      | error error' => cases hx
      | ok a' => exact hf a a' (Except.ok.inj hx)

variable (m : Multiplicity)

mutual

def Entity.uniform : Entity → Entity
  | ⟨table, idColumn, columns, children⟩ => ⟨table, idColumn, columns, Child.uniformAll children⟩

def Child.uniformAll : List Child → List Child
  | [] => []
  | ⟨property, _, keyColumn, backReference, entity⟩ :: rest =>
    ⟨property, m, keyColumn, backReference, entity.uniform⟩ :: Child.uniformAll rest

end

def Aggregate.uniform (aggregate : Aggregate) : Aggregate :=
  { aggregate with root := aggregate.root.uniform m }

namespace Mapping

def uniform (mapping : Mapping) : Mapping := { mapping with multiplicity := m }

@[simp] theorem path_uniform (mapping : Mapping) : (mapping.uniform m).path = mapping.path := rfl

@[simp] theorem spec_uniform (mapping : Mapping) : (mapping.uniform m).spec = mapping.spec := rfl

theorem Indexed.map {entities : List Mapping} {places : List (EntityPath × Nat)}
    (h : Indexed entities places) {change : Mapping → Mapping}
    (hpath : ∀ mapping, (change mapping).path = mapping.path) :
    Indexed (entities.map change) places where
  place mapping hm := by
    obtain ⟨old, ho, rfl⟩ := List.mem_map.mp hm
    rw [hpath]
    exact h.place old ho
  mapping path place hplace := by
    obtain ⟨old, ho, rfl⟩ := h.mapping path place hplace
    exact ⟨change old, by rw [List.getElem?_map, ho, Option.map_some], hpath old⟩

end Mapping

mutual

/-- An entity is checked alike whatever the multiplicities; its mappings differ in them alone. -/
theorem Entity.mappings_uniform (path : EntityPath) (keyColumn : Option String)
    (first second : Multiplicity) (backReference : Option String) : (entity : Entity) →
    ((entity.uniform m).mappings path keyColumn first backReference).map
        (Prod.map (Mapping.uniform m) (List.map (Mapping.uniform m))) =
      (entity.mappings path keyColumn second backReference).map
        (Prod.map (Mapping.uniform m) (List.map (Mapping.uniform m)))
  | ⟨table, idColumn, columns, children⟩ => by
      have hchildren := Child.mappings_uniformAll path table [] children
      rw [Entity.uniform, Entity.mappings, Entity.mappings]
      split
      · rfl
      · exact map_bind_congr hchildren fun below below' hbelow =>
          congrArg Except.ok (Prod.ext rfl hbelow)

theorem Child.mappings_uniformAll (path : EntityPath) (table : String) (seen : List String) :
    (children : List Child) →
    (Child.mappings path table seen (Child.uniformAll m children)).map
        (List.map (Mapping.uniform m)) =
      (Child.mappings path table seen children).map (List.map (Mapping.uniform m))
  | [] => rfl
  | ⟨property, multiplicity, keyColumn, backReference, entity⟩ :: rest => by
      have hentity := Entity.mappings_uniform (path.child property) keyColumn m multiplicity
        (some (backReference.getD (defaultBackReference table))) entity
      have hrest := Child.mappings_uniformAll path table (property :: seen) rest
      rw [Child.uniformAll, Child.mappings, Child.mappings]
      split
      · rfl
      · split
        · rfl
        · refine map_bind_congr hentity fun found found' hfound => ?_
          refine map_bind_congr hrest fun others others' hothers => congrArg Except.ok ?_
          obtain ⟨hchild, hbelow⟩ := Prod.ext_iff.mp hfound
          dsimp only [Prod.map] at hchild hbelow
          simp only [List.map_append, List.map_cons, hchild, hbelow, hothers]

end

namespace Schema

def uniform (schema : Schema) : Schema :=
  ⟨schema.name, schema.root.uniform m, schema.below.map (Mapping.uniform m), schema.places,
    schema.indexed.map (Mapping.path_uniform m)⟩

theorem push_uniform (schema : Schema) (mapping : Mapping) :
    (schema.push mapping).uniform m = (schema.uniform m).push (mapping.uniform m) := by
  simp [uniform, push, entities]

theorem pushAll_uniform (schema : Schema) (mappings : List Mapping) :
    (schema.pushAll mappings).uniform m =
      (schema.uniform m).pushAll (mappings.map (Mapping.uniform m)) := by
  induction mappings generalizing schema with
  | nil => rfl
  | cons mapping rest ih =>
      have hrest := ih (schema.push mapping)
      rwa [push_uniform] at hrest

theorem map_ofAggregate_uniform (aggregate : Aggregate) :
    (ofAggregate (aggregate.uniform m)).map (uniform m) =
      (ofAggregate aggregate).map (uniform m) := by
  have hchildren : ∀ children : List Child,
      (Child.uniformAll m children).isEmpty = children.isEmpty := by
    rintro (_ | ⟨⟨property, multiplicity, keyColumn, backReference, entity⟩, rest⟩) <;> rfl
  -- what is entered for the mappings found, up to multiplicities
  have hentered : ∀ (found : Except Flaw (Mapping × List Mapping)) (name : String),
      (((found.map fun found => (start name found.1).pushAll found.2).mapError
          (SchemaError.invalid name)).map (uniform m)) =
        ((found.map (Prod.map (Mapping.uniform m) (List.map (Mapping.uniform m)))).map
          fun found => (start name found.1).pushAll found.2).mapError (.invalid name) := by
    rintro (flaw | ⟨first, below⟩) name
    · rfl
    · exact congrArg Except.ok (pushAll_uniform m (start name first) below)
  obtain ⟨name, table, idColumn, columns, children⟩ := aggregate
  have hroot := Entity.mappings_uniform m .root none .single .single none
    ⟨table, idColumn, columns, children⟩
  rw [ofAggregate, ofAggregate]
  simp only [Aggregate.uniform, Entity.uniform, hchildren, Entity.enter_eq] at hroot ⊢
  split
  · rfl
  split
  · rfl
  · rw [hentered, hentered, hroot]

variable (schema : Schema)

theorem known_uniform (path : EntityPath) :
    (schema.uniform m).known path = (schema.known path).map (Mapping.uniform m) := by
  have hentities : (schema.uniform m).entities = schema.entities.map (Mapping.uniform m) := rfl
  have hentity : (schema.uniform m).entity? path =
      (schema.entity? path).map (Mapping.uniform m) := by
    rw [entity?, entity?, show (schema.uniform m).place? path = schema.place? path from rfl]
    cases schema.place? path with
    | none => rfl
    | some place => rw [Option.bind_some, Option.bind_some, hentities, List.getElem?_map]
  rw [known, known, hentity]
  cases schema.entity? path <;> rfl

theorem foreignKeyName_uniform : (schema.uniform m).foreignKeyName = schema.foreignKeyName := by
  funext owner referenced
  rw [foreignKeyName, foreignKeyName, known_uniform, known_uniform]
  cases schema.known owner with
  | error error => rfl
  | ok owning => cases schema.known referenced.entity <;> rfl

theorem names_uniform : (schema.uniform m).names = schema.names := by
  have htables : (fun path => Mapping.table <$> (schema.uniform m).known path) =
      fun path => Mapping.table <$> schema.known path := by
    funext path
    rw [known_uniform]
    cases schema.known path <;> rfl
  rw [names, names, htables, foreignKeyName_uniform]

theorem addEntity_uniform (draft : Draft EntityPath ColumnRef) (mapping : Mapping) :
    (schema.uniform m).addEntity (draft.uniform m) (mapping.uniform m) =
      (schema.addEntity draft mapping).map (Draft.uniform m) := by
  rw [addEntity, addEntity, Mapping.path_uniform, Mapping.spec_uniform]
  cases mapping.path.parent with
  | none => rfl
  | some parent =>
      have hadd := Draft.addChild_uniform m draft parent mapping.multiplicity mapping.spec
      exact (congrArg (Except.mapError SchemaError.joinTree) hadd).trans (mapError_map ..)

theorem draft_uniform : (schema.uniform m).draft = schema.draft.map (Draft.uniform m) := by
  have hroot : ((Draft.empty.addRoot schema.root.spec).mapError SchemaError.joinTree).map
      (Draft.uniform m) = (Draft.empty.addRoot schema.root.spec).mapError .joinTree := by
    rw [← mapError_map, ← Draft.addRoot_uniform, Draft.uniform_empty]
  rw [draft, draft, show (schema.uniform m).root.spec = schema.root.spec from rfl]
  conv_lhs => rw [← hroot]
  exact map_bind_eq (foldlM_map_eq (schema.addEntity_uniform m) schema.below)

theorem plan_uniform : (schema.uniform m).plan = schema.plan.map (Plan.uniform m) := by
  rw [plan, plan, draft_uniform]
  refine map_bind_eq fun draft => ?_
  rw [Draft.plan_uniform, mapError_map]

end Schema

namespace Generator

theorem query_uniform (generator : Generator) (schema : Schema) :
    generator.query (schema.uniform m) = generator.query schema := by
  have hstatement : generator.statement (schema.uniform m) = generator.statement schema := by
    rw [statement, statement, Schema.plan_uniform, Schema.names_uniform, mapError_map]
    cases schema.plan.mapError GeneratorError.schema with
    | error error => rfl
    | ok plan =>
        change Except.mapError _ (((Lowering.query schema.names (plan.uniform m)).run.run _).1) = _
        rw [Lowering.query_uniform]
        rfl
  rw [query, query, hstatement]
  rfl

end Generator

/-- The second plan is the first one but for the multiplicities of the joins. It reads the same, and
whatever the names and the book its statement is the same, as are the aliases given out for it. -/
structure Plan.Interchangeable {T C : Type} [DecidableEq T] [DecidableEq C] [ToString T]
    [ToString C] (plan other : Plan T C) : Prop where
  columns_eq : other.columns = plan.columns
  root_eq : other.root = plan.root
  selects_eq : other.selects.map (PlanSelect.uniform m) = plan.selects.map (PlanSelect.uniform m)
  columnText_eq : ∀ column, other.columnText column = plan.columnText column
  selectText_eq : ∀ select, other.selectText select = plan.selectText select
  query_eq : ∀ (names : NameSource T C) (book : AliasBook T C),
    (Lowering.query names other).on book = (Lowering.query names plan).on book

section Interchangeable

variable {m : Multiplicity} {T C : Type} [ToString T]

theorem exists_of_map_eq {E α β : Type} {x y : Except E α} {f : α → β} {a : α}
    (h : x.map f = y.map f) (hx : x = .ok a) : ∃ b, y = .ok b ∧ f b = f a := by
  subst hx
  cases y with
  | error error => cases h
  | ok b => exact ⟨b, rfl, (Except.ok.inj h).symm⟩

theorem Plan.interchangeable_of_eq [DecidableEq T] [DecidableEq C] [ToString C]
    {plan other : Plan T C} (h : other.uniform m = plan.uniform m) :
    Plan.Interchangeable m plan other where
  columns_eq := by rw [← columns_uniform m, h, columns_uniform]
  root_eq := by rw [← root_uniform m, h, root_uniform]
  selects_eq := congrArg Plan.selects h
  columnText_eq column := by rw [← columnText_uniform m, h, columnText_uniform]
  selectText_eq select := by rw [← selectText_uniform m, h, selectText_uniform]
  query_eq names book := by rw [← Lowering.query_uniform m, h, Lowering.query_uniform]

/-- Calls that differ only in multiplicities are accepted alike, and their plans differ only
there. -/
theorem Draft.exists_plan_of_uniform_eq [DecidableEq T] {calls others : List (Draft.Call T C)}
    (h : calls.map (Draft.Call.uniform m) = others.map (Draft.Call.uniform m)) {draft : Draft T C}
    {plan : Plan T C} (hcalls : calls.foldlM answer empty = .ok draft)
    (hplan : draft.plan = .ok plan) :
    ∃ draft' plan', others.foldlM answer empty = .ok draft' ∧ draft'.plan = .ok plan' ∧
      plan'.uniform m = plan.uniform m := by
  have hfold : (calls.foldlM answer (empty : Draft T C)).map (uniform m) =
      (others.foldlM answer empty).map (uniform m) := by
    rw [← foldlM_answer_uniform, ← foldlM_answer_uniform, h]
  obtain ⟨draft', hdraft', hsame⟩ := exists_of_map_eq hfold hcalls
  have hplans : draft.plan.map (Plan.uniform m) = draft'.plan.map (Plan.uniform m) := by
    rw [← plan_uniform, ← plan_uniform, hsame]
  obtain ⟨plan', hplan', heq⟩ := exists_of_map_eq hplans hplan
  exact ⟨draft', plan', hdraft', hplan', heq⟩

/-- So are aggregates that differ only in multiplicities. -/
theorem Schema.exists_of_uniform_eq {aggregate other : Aggregate} {schema : Schema}
    (h : aggregate.uniform m = other.uniform m) (hschema : ofAggregate aggregate = .ok schema) :
    ∃ schema', ofAggregate other = .ok schema' ∧ schema'.uniform m = schema.uniform m := by
  have hmap : (ofAggregate aggregate).map (uniform m) = (ofAggregate other).map (uniform m) := by
    rw [← map_ofAggregate_uniform, h, map_ofAggregate_uniform]
  exact exists_of_map_eq hmap hschema

end Interchangeable

/-- Multiplicities never matter. Calls that differ in nothing else build interchangeable plans, and
so do aggregates, which have the same queries whatever the settings. -/
theorem interchangeable_of_uniform_eq :
    (∀ (T C : Type) [DecidableEq T] [DecidableEq C] [ToString T] [ToString C]
      (calls others : List (Draft.Call T C)) (draft : Draft T C) (plan : Plan T C),
      calls.map (Draft.Call.uniform m) = others.map (Draft.Call.uniform m) →
      calls.foldlM Draft.answer Draft.empty = .ok draft → draft.plan = .ok plan →
      ∃ draft' plan', others.foldlM Draft.answer Draft.empty = .ok draft' ∧
        draft'.plan = .ok plan' ∧ plan.Interchangeable m plan') ∧
    ∀ (aggregate other : Aggregate) (schema : Schema), aggregate.uniform m = other.uniform m →
      Schema.ofAggregate aggregate = .ok schema →
      ∃ schema' plan plan', Schema.ofAggregate other = .ok schema' ∧ schema.plan = .ok plan ∧
        schema'.plan = .ok plan' ∧ plan.Interchangeable m plan' ∧
        ∀ generator : Generator, ∃ query, generator.query schema = .ok query ∧
          generator.query schema' = .ok query := by
  constructor
  · intro T C _ _ _ _ calls others draft plan h hcalls hplan
    obtain ⟨draft', plan', hdraft', hplan', heq⟩ :=
      Draft.exists_plan_of_uniform_eq h hcalls hplan
    exact ⟨draft', plan', hdraft', hplan', Plan.interchangeable_of_eq heq⟩
  · intro aggregate other schema h hschema
    obtain ⟨schema', hschema', hsame⟩ := Schema.exists_of_uniform_eq h hschema
    obtain ⟨-, plan, -, -, hplan⟩ := Schema.exists_plan hschema
    have hplans : schema.plan.map (Plan.uniform m) = schema'.plan.map (Plan.uniform m) := by
      rw [← Schema.plan_uniform, ← Schema.plan_uniform, hsame]
    obtain ⟨plan', hplan', heq⟩ := exists_of_map_eq hplans hplan
    refine ⟨schema', plan, plan', hschema', hplan, hplan', Plan.interchangeable_of_eq heq, ?_⟩
    intro generator
    obtain ⟨query, hquery⟩ := Generator.exists_query hschema generator
    refine ⟨query, hquery, ?_⟩
    rw [← Generator.query_uniform m, hsame, Generator.query_uniform, hquery]

/-- A table with two children, one of them without id and with a child of its own, and an order with
its customer and its lines: all multiplicities are changed. -/
theorem interchangeable_of_uniform_eq_order :
    let calls (first second third : Multiplicity) : List (Draft.Call Nat Nat) :=
      [.root { table := 0, id := some 10 }, .child ⟨0, first, { table := 1, columns := [20] }⟩,
        .child ⟨0, second, { table := 2, id := some 30 }⟩, .child ⟨1, third, { table := 3 }⟩]
    let order (first second : Multiplicity) : Aggregate := ⟨"order",
      { table := "orders", idColumn := some "id"
        children := [{ property := "customer", multiplicity := first,
                       entity := { table := "customer", columns := ["name"] } },
          { property := "lines", multiplicity := second, keyColumn := some "position",
            entity := { table := "line" } }] }⟩
    (∃ draft plan, (calls .single .multiple .single).foldlM Draft.answer Draft.empty = .ok draft ∧
      draft.plan = .ok plan ∧
      ∃ draft' plan',
        (calls .multiple .single .multiple).foldlM Draft.answer Draft.empty = .ok draft' ∧
          draft'.plan = .ok plan' ∧ plan.Interchangeable .multiple plan') ∧
    ∃ schema, Schema.ofAggregate (order .single .multiple) = .ok schema ∧
      ∃ schema' plan plan', Schema.ofAggregate (order .multiple .single) = .ok schema' ∧
        schema.plan = .ok plan ∧ schema'.plan = .ok plan' ∧ plan.Interchangeable .multiple plan' ∧
        ∀ generator : Generator, ∃ query, generator.query schema = .ok query ∧
          generator.query schema' = .ok query := by
  intro calls order
  have h := interchangeable_of_uniform_eq .multiple
  obtain ⟨draft, plan, hcalls, hplan⟩ : ∃ draft plan,
      (calls .single .multiple .single).foldlM Draft.answer Draft.empty = .ok draft ∧
        draft.plan = .ok plan := ⟨_, _, rfl, rfl⟩
  let orders : Mapping := ⟨.root, "orders", some "id", [], none, none, .single⟩
  let schema : Schema := (Schema.start "order" orders).pushAll
    [⟨⟨"customer"⟩, "customer", none, ["name"], none, some "orders_id", .single⟩,
      ⟨⟨"lines"⟩, "line", none, [], some "position", some "orders_id", .multiple⟩]
  have hschema : Schema.ofAggregate (order .single .multiple) = .ok schema := by decide
  exact ⟨⟨draft, plan, hcalls, hplan, h.1 Nat Nat (calls .single .multiple .single)
      (calls .multiple .single .multiple) draft plan rfl hcalls hplan⟩,
    schema, hschema, h.2 (order .single .multiple) (order .multiple .single) schema rfl hschema⟩

end FlatAggregate
