import FlatAggregate.Aggregate.Definition
import FlatAggregate.Aggregate.Path
import FlatAggregate.Naming.Source
import FlatAggregate.Plan.Construction
import FlatAggregate.Text.Blank

/-!
# Schemas

A schema is a checked aggregate: its entities in pre-order, each with its path. So a parent comes
before its children, and siblings keep the order of the definition. The checks go along with the
walk, and the first thing that is wrong refuses the aggregate.

A schema names the tables and columns of the plan that is made from it.

Entities are found by way of an index: `place?` gives the place of a path among all entities, and
`entity?` the entity that stands there. The index grows with the list, for `push` gives a new entity
the place at the end. That the index fits the list, `Mapping.Indexed`, is part of every schema: a
place it gives always holds an entity with the path asked for. On schemas of accepted aggregates the
paths differ, so the index tells exactly which entity has which path.

Everything else a schema answers by this lookup: `entity` and `known` differ in the error for a path
that is not there, `names` gives a plan the names of its tables and foreign keys, and `plan` adds
the tables of all entities to a draft, parents first, and builds the plan of the draft. A `Flaw` is
what refuses an aggregate, and a `SchemaError` says why there is no schema, no entity or no plan.
-/

namespace FlatAggregate

inductive Flaw where
  | blankName
  | rootWithoutId (table : String)
  | blankTable (path : EntityPath)
  | invalidProperty (property : String) (path : EntityPath)
  | duplicateProperty (property : String) (path : EntityPath)
  deriving DecidableEq, Repr

def Flaw.message : Flaw → String
  | blankName => "aggregate name cannot be empty"
  | rootWithoutId table => "root table " ++ table ++ " has no id column and can't have children"
  | blankTable path => "entity " ++ toString path ++ " has an empty table name"
  | invalidProperty property path =>
    "invalid property name \x60" ++ property ++ "\x60 below " ++ toString path
  | duplicateProperty property path =>
    "duplicate property \x60" ++ property ++ "\x60 below " ++ toString path

inductive SchemaError where
  | invalid (aggregate : String) (flaw : Flaw)
  | unknownEntity (aggregate : String) (path : EntityPath)
  | joinTree (error : JoinTreeError)
  deriving DecidableEq, Repr

def SchemaError.message : SchemaError → String
  | invalid aggregate flaw => "Invalid aggregate \x60" ++ aggregate ++ "\x60: " ++ flaw.message
  | unknownEntity aggregate path =>
    "Unknown entity path \x60" ++ toString path ++ "\x60 in aggregate \x60" ++ aggregate ++ "\x60"
  | joinTree error => error.message

structure Mapping where
  path : EntityPath
  table : String
  idColumn : Option String
  columns : List String
  keyColumn : Option String
  /-- The column with the parent's id; only the root has none. -/
  backReference : Option String
  multiplicity : Multiplicity
  deriving DecidableEq, Repr

namespace Mapping

def ref (mapping : Mapping) (column : String) : ColumnRef := ⟨mapping.path, column⟩

def id (mapping : Mapping) : Option ColumnRef := mapping.idColumn.map mapping.ref

def refs (mapping : Mapping) : List ColumnRef := mapping.columns.map mapping.ref

def key (mapping : Mapping) : Option ColumnRef := mapping.keyColumn.map mapping.ref

/-- The table specification: columns that are declared twice are taken once. -/
def spec (mapping : Mapping) : TableSpec EntityPath ColumnRef :=
  { TableSpec.withColumns { table := mapping.path } mapping.refs with
    id := mapping.id, key := mapping.key }

end Mapping

def validProperty (property : String) : Bool :=
  !property.isEmpty && !property.toList.contains '.'

def defaultBackReference (table : String) : String := table ++ "_id"

/-- What a list of places says of entities: a place for the path of every entity, and an entity with
that path at every place. Earlier entries of `places` hide later ones with their path. -/
structure Mapping.Indexed (entities : List Mapping) (places : List (EntityPath × Nat)) : Prop where
  place : ∀ mapping ∈ entities, ∃ place, places.lookup mapping.path = some place
  mapping : ∀ path place, places.lookup path = some place →
    ∃ mapping, entities[place]? = some mapping ∧ mapping.path = path

theorem Mapping.Indexed.nil : Indexed [] [] where
  place := by simp
  mapping := by simp

theorem Mapping.Indexed.push {entities : List Mapping} {places : List (EntityPath × Nat)}
    (h : Indexed entities places) (mapping : Mapping) :
    Indexed (entities ++ [mapping]) ((mapping.path, entities.length) :: places) where
  place other ho := by
    by_cases hpath : other.path = mapping.path
    · exact ⟨entities.length, hpath ▸ List.lookup_cons_self⟩
    · have hother : other ∈ entities := by
        rcases List.mem_append.mp ho with ho | ho
        · exact ho
        · exact absurd (congrArg Mapping.path (List.mem_singleton.mp ho)) hpath
      rw [List.lookup_cons, beq_false_of_ne hpath]
      exact h.place other hother
  mapping path place hplace := by
    by_cases hpath : path = mapping.path
    · rw [hpath, List.lookup_cons_self] at hplace
      exact ⟨mapping, by simp [← Option.some.inj hplace], hpath.symm⟩
    · rw [List.lookup_cons, beq_false_of_ne hpath] at hplace
      obtain ⟨other, hother, heq⟩ := h.mapping path place hplace
      have hlt := (List.getElem?_eq_some_iff.mp hother).1
      exact ⟨other, by rw [List.getElem?_append_left hlt, hother], heq⟩

/-- A checked aggregate: its entities in pre-order, and an index of them by path. -/
structure Schema where
  name : String
  root : Mapping
  below : List Mapping
  /-- By path, places among the root and the entities below it; the latest entry stands in front. -/
  places : List (EntityPath × Nat)
  indexed : Mapping.Indexed (root :: below) places
  deriving DecidableEq, Repr

namespace Schema

def entities (schema : Schema) : List Mapping := schema.root :: schema.below

def start (name : String) (root : Mapping) : Schema :=
  ⟨name, root, [], [(root.path, 0)], Mapping.Indexed.nil.push root⟩

def push (schema : Schema) (mapping : Mapping) : Schema :=
  { schema with
    below := schema.below ++ [mapping]
    places := (mapping.path, schema.entities.length) :: schema.places
    indexed := schema.indexed.push mapping }

end Schema

mutual

/-- Checks the entity at `path` and enters it with `put`, and then all that is below it. The root
starts a schema; every other entity is pushed onto the schema so far. -/
def Entity.enter (put : Mapping → Schema) (path : EntityPath) (keyColumn : Option String)
    (multiplicity : Multiplicity) (backReference : Option String) : Entity → Except Flaw Schema
  | ⟨table, idColumn, columns, children⟩ =>
    if Text.isBlank table then .error (.blankTable path)
    else
      Child.enter path table []
        (put ⟨path, table, idColumn, columns, keyColumn, backReference, multiplicity⟩) children

/-- Checks and enters the children of a table at `path`, each with all that is below it, when the
siblings before them have the properties `seen`. -/
def Child.enter (path : EntityPath) (table : String) (seen : List String) (schema : Schema) :
    List Child → Except Flaw Schema
  | [] => .ok schema
  | ⟨property, multiplicity, keyColumn, backReference, entity⟩ :: rest =>
    if !validProperty property then .error (.invalidProperty property path)
    else if property ∈ seen then .error (.duplicateProperty property path)
    else do
      let schema ← entity.enter schema.push (path.child property) keyColumn multiplicity
        (some (backReference.getD (defaultBackReference table)))
      Child.enter path table (property :: seen) schema rest

end

namespace Schema

/-- Checks an aggregate. The first flaw on the way refuses it. -/
def ofAggregate (aggregate : Aggregate) : Except SchemaError Schema :=
  let root := aggregate.root
  if Text.isBlank aggregate.name then .error (.invalid aggregate.name .blankName)
  else if root.idColumn.isNone && !root.children.isEmpty then
    .error (.invalid aggregate.name (.rootWithoutId root.table))
  else
    (root.enter (start aggregate.name) .root none .single none).mapError (.invalid aggregate.name)

def place? (schema : Schema) (path : EntityPath) : Option Nat :=
  schema.places.lookup path

def entity? (schema : Schema) (path : EntityPath) : Option Mapping :=
  (schema.place? path).bind (schema.entities[·]?)

theorem mem_of_entity? {schema : Schema} {path : EntityPath} {mapping : Mapping}
    (h : schema.entity? path = some mapping) : mapping ∈ schema.entities ∧ mapping.path = path := by
  obtain ⟨place, hplace, hmapping⟩ := Option.bind_eq_some_iff.mp h
  obtain ⟨other, hother, hpath⟩ := schema.indexed.mapping path place hplace
  obtain rfl := Option.some.inj (hother.symm.trans hmapping)
  exact ⟨List.mem_of_getElem? hmapping, hpath⟩

/-- Every path of an entity is found, and no other path. -/
theorem exists_entity?_iff {schema : Schema} {path : EntityPath} :
    (∃ mapping, schema.entity? path = some mapping) ↔
      path ∈ schema.entities.map Mapping.path := by
  constructor
  · rintro ⟨mapping, h⟩
    obtain ⟨hm, hpath⟩ := mem_of_entity? h
    exact List.mem_map.mpr ⟨mapping, hm, hpath⟩
  · intro h
    obtain ⟨mapping, hm, rfl⟩ := List.mem_map.mp h
    obtain ⟨place, hplace⟩ := schema.indexed.place mapping hm
    obtain ⟨other, hother, -⟩ := schema.indexed.mapping mapping.path place hplace
    exact ⟨other, Option.bind_eq_some_iff.mpr ⟨place, hplace, hother⟩⟩

theorem entity?_eq_none_iff {schema : Schema} {path : EntityPath} :
    schema.entity? path = none ↔ path ∉ schema.entities.map Mapping.path := by
  rw [← exists_entity?_iff, ← Option.isSome_iff_exists, Option.not_isSome_iff_eq_none]

def entity (schema : Schema) (path : EntityPath) : Except SchemaError Mapping :=
  match schema.entity? path with
  | some mapping => .ok mapping
  | none => .error (.unknownEntity schema.name path)

def known (schema : Schema) (path : EntityPath) : Except NamingError Mapping :=
  match schema.entity? path with
  | some mapping => .ok mapping
  | none => .error (.unknownTable (toString path))

/-- The name of the column that stores a copy of `referenced` in the table of `owner`. The copy of
an ancestor's id is stored under the back reference of `owner`, also when it comes by way of a
parent without id; the copy of any other column is named after its table and its name. -/
def foreignKeyName (schema : Schema) (owner : EntityPath) (referenced : ColumnRef) :
    Except NamingError String := do
  let owning ← schema.known owner
  let source ← schema.known referenced.entity
  let isId := source.idColumn = some referenced.column
  match owning.backReference with
  | some backReference =>
    if isId && referenced.entity.isAncestor owner then return backReference
    else return source.table ++ "_" ++ referenced.column
  | none => return source.table ++ "_" ++ referenced.column

def names (schema : Schema) : NameSource EntityPath ColumnRef where
  tableName path := (·.table) <$> schema.known path
  columnName ref := ref.column
  foreignKeyName := schema.foreignKeyName

def addEntity (schema : Schema) (draft : Draft EntityPath ColumnRef) (mapping : Mapping) :
    Except SchemaError (Draft EntityPath ColumnRef) :=
  match mapping.path.parent with
  | none => .error (.unknownEntity schema.name mapping.path)
  | some parent => (draft.addChild parent mapping.multiplicity mapping.spec).mapError .joinTree

def draft (schema : Schema) : Except SchemaError (Draft EntityPath ColumnRef) := do
  let start ← (Draft.empty.addRoot schema.root.spec).mapError .joinTree
  schema.below.foldlM schema.addEntity start

def plan (schema : Schema) : Except SchemaError (Plan EntityPath ColumnRef) := do
  (← schema.draft).plan.mapError .joinTree

end Schema

end FlatAggregate
