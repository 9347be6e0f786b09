import FlatAggregate.Aggregate.Definition
import FlatAggregate.Document.ValueReader

/-!
# Aggregates as documents

An aggregate is a record of its name and its root entity. The members of a child's entity (table,
id column, columns, children) stand next to the child's own members, in the same record. Members
that hold their default may be left out, and unknown members are passed over.

A document of any format is read by shape down to the first level of children. There a record holds
the members of two types at once; those of the entity are kept as values, and all that is nested
below them is read from these values.

`Aggregate.toValue` writes a document, with all members and in a fixed order: the own members of a
child come before those of its entity. `Aggregate.ofValue` reads a value, and `Aggregate.read` reads
any format by `Aggregate.shape`. The drafts hold what has been read so far. Of an entity only the
table has no default, so an `EntityDraft` is finished if it has one; `ChildDraft.withEntity` makes a
child of its own members and of the entity that was read from the members it kept.
-/

namespace FlatAggregate

open Value

def Multiplicity.variants : List (String × Multiplicity) :=
  [("single", .single), ("multiple", .multiple)]

def Multiplicity.name : Multiplicity → String
  | single => "single"
  | multiple => "multiple"

mutual

def Entity.toMembers : Entity → List (String × Value)
  | ⟨table, idColumn, columns, children⟩ =>
    [("table", text table), ("id_column", ofOption idColumn), ("columns", ofTexts columns),
      ("children", list (Child.toValues children))]

def Child.toValue : Child → Value
  | ⟨property, multiplicity, keyColumn, backReference, entity⟩ =>
    object ([("property", text property), ("multiplicity", text multiplicity.name),
      ("key_column", ofOption keyColumn), ("back_reference", ofOption backReference)] ++
      entity.toMembers)

def Child.toValues : List Child → List Value
  | [] => []
  | child :: rest => child.toValue :: Child.toValues rest

end

def Aggregate.toValue (aggregate : Aggregate) : Value :=
  object [("name", text aggregate.name), ("root", object aggregate.root.toMembers)]

structure EntityDraft where
  table : Option String := none
  idColumn : Option (Option String) := none
  columns : Option (List String) := none
  children : Option (List Child) := none

def EntityDraft.finish (draft : EntityDraft) : Except Mismatch Entity :=
  match draft.table with
  | none => .error (.missingField "table")
  | some table =>
    .ok ⟨table, draft.idColumn.getD none, draft.columns.getD [], draft.children.getD []⟩

/-- The own members of a child, and the members that it keeps for its entity. -/
structure ChildDraft where
  property : String := ""
  multiplicity : Multiplicity := .multiple
  keyColumn : Option String := none
  backReference : Option String := none
  kept : List (Value × Value) := []

namespace ChildDraft

def withEntity (draft : ChildDraft) (entity : Entity) : Child :=
  ⟨draft.property, draft.multiplicity, draft.keyColumn, draft.backReference, entity⟩

def fields {m : Type → Type} [DocumentReader m] : List (Field m ChildDraft) :=
  [⟨"property", true, fun draft => do
      return { draft with property := ← DocumentReader.text }⟩,
    ⟨"multiplicity", false, fun draft => do
      return { draft with multiplicity := ← DocumentReader.choice Multiplicity.variants }⟩,
    ⟨"key_column", false, fun draft => do
      return { draft with keyColumn := ← DocumentReader.optionalText }⟩,
    ⟨"back_reference", false, fun draft => do
      return { draft with backReference := ← DocumentReader.optionalText }⟩]

/-- The shape of a child: what becomes of its kept members is up to `finish`. -/
def shape {m : Type → Type} [DocumentReader m] {α : Type}
    (finish : ChildDraft → Except Mismatch α) : RecordShape m ChildDraft α where
  expected := "struct ChildDefinition"
  fields := fields
  keep := some fun name value draft => { draft with kept := draft.kept ++ [(text name, value)] }
  finish := finish

end ChildDraft

mutual

/-- Enters the members of an entity into a draft; other members are passed over. -/
def EntityDraft.ofMembers (draft : EntityDraft) :
    List (Value × Value) → Except Mismatch EntityDraft
  | [] => .ok draft
  | (.text "table", value) :: rest => do
    if draft.table.isSome then throw (.duplicateField "table")
    let table ← ValueReader.text value
    EntityDraft.ofMembers { draft with table := some table } rest
  | (.text "id_column", value) :: rest => do
    if draft.idColumn.isSome then throw (.duplicateField "id_column")
    let idColumn ← ValueReader.optionalText value
    EntityDraft.ofMembers { draft with idColumn := some idColumn } rest
  | (.text "columns", value) :: rest => do
    if draft.columns.isSome then throw (.duplicateField "columns")
    let columns ← ValueReader.list ValueReader.text value
    EntityDraft.ofMembers { draft with columns := some columns } rest
  | (.text "children", value) :: rest => do
    if draft.children.isSome then throw (.duplicateField "children")
    let children ←
      match value with
      | .list items => Child.ofValues items
      | other => throw (.type other.found "a sequence")
    EntityDraft.ofMembers { draft with children := some children } rest
  | _ :: rest => EntityDraft.ofMembers draft rest

def Child.ofValue : Value → Except Mismatch Child
  | .record members => do
    let draft ← ValueReader.members (ChildDraft.shape .ok) members [] {}
    let entity ← EntityDraft.ofMembers {} members
    return draft.withEntity (← entity.finish)
  | other => .error (.type other.found "struct ChildDefinition")

def Child.ofValues : List Value → Except Mismatch (List Child)
  | [] => .ok []
  | value :: rest => do return (← Child.ofValue value) :: (← Child.ofValues rest)

end

section Shapes

variable {m : Type → Type} [DocumentReader m]

def Child.shape : RecordShape m ChildDraft Child :=
  ChildDraft.shape fun draft => do
    let entity ← EntityDraft.ofMembers {} draft.kept
    return draft.withEntity (← entity.finish)

def Entity.shape : RecordShape m Entity Entity where
  expected := "struct EntityDefinition"
  fields :=
    [⟨"table", true, fun entity => do
        return { entity with table := ← DocumentReader.text }⟩,
      ⟨"id_column", false, fun entity => do
        return { entity with idColumn := ← DocumentReader.optionalText }⟩,
      ⟨"columns", false, fun entity => do
        return { entity with columns := ← DocumentReader.list DocumentReader.text }⟩,
      ⟨"children", false, fun entity => do
        let children ← DocumentReader.list (DocumentReader.record Child.shape {})
        return { entity with children }⟩]
  finish := .ok

def Aggregate.shape : RecordShape m Aggregate Aggregate where
  expected := "struct AggregateConfig"
  fields :=
    [⟨"name", true, fun aggregate => do
        return { aggregate with name := ← DocumentReader.text }⟩,
      ⟨"root", true, fun aggregate => do
        return { aggregate with root := ← DocumentReader.record Entity.shape { table := "" } }⟩]
  finish := .ok

def Aggregate.read : m Aggregate :=
  DocumentReader.record Aggregate.shape { name := "", root := { table := "" } }

end Shapes

def Aggregate.ofValue (value : Value) : Except Mismatch Aggregate :=
  (Aggregate.read : ValueReader Aggregate).run value

end FlatAggregate
