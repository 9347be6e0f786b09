import FlatAggregate.Aggregate.Schema
import Mathlib.Logic.Basic
import Mathlib.Tactic.SplitIfs

/-!
# Mappings of an aggregate

Checking an aggregate enters its entities into a schema one after the other, while the rest is still
to be checked. What is entered does not depend on what is there: `Entity.mappings` and
`Child.mappings` list it, with the same checks in the same order, and to enter is to push the listed
mappings (`Entity.enter_eq`, `Child.enter_eq`).

So a statement on the entities of a schema is a statement on these lists. The index needs no such
list, because every push keeps it in step (`Schema.indexed`).
-/

namespace FlatAggregate

mutual

/-- The mapping of an entity at `path` and, in pre-order, the mappings of the entities below it. -/
def Entity.mappings (path : EntityPath) (keyColumn : Option String) (multiplicity : Multiplicity)
    (backReference : Option String) : Entity → Except Flaw (Mapping × List Mapping)
  | ⟨table, idColumn, columns, children⟩ =>
    if Text.isBlank table then .error (.blankTable path)
    else do
      let below ← Child.mappings path table [] children
      return (⟨path, table, idColumn, columns, keyColumn, backReference, multiplicity⟩, below)

/-- The mappings of the children of a table at `path`, in pre-order, when the siblings before them
have the properties `seen`. -/
def Child.mappings (path : EntityPath) (table : String) (seen : List String) :
    List Child → Except Flaw (List Mapping)
  | [] => .ok []
  | ⟨property, multiplicity, keyColumn, backReference, entity⟩ :: rest =>
    if !validProperty property then .error (.invalidProperty property path)
    else if property ∈ seen then .error (.duplicateProperty property path)
    else do
      let (child, below) ← entity.mappings (path.child property) keyColumn multiplicity
        (some (backReference.getD (defaultBackReference table)))
      let others ← Child.mappings path table (property :: seen) rest
      return child :: below ++ others

end

namespace Schema

def pushAll (schema : Schema) (mappings : List Mapping) : Schema :=
  mappings.foldl push schema

variable (schema : Schema)

theorem pushAll_append (first second : List Mapping) :
    schema.pushAll (first ++ second) = (schema.pushAll first).pushAll second :=
  List.foldl_append

theorem name_pushAll (mappings : List Mapping) : (schema.pushAll mappings).name = schema.name := by
  induction mappings generalizing schema with
  | nil => rfl
  | cons mapping rest ih => exact ih (schema.push mapping)

theorem root_pushAll (mappings : List Mapping) : (schema.pushAll mappings).root = schema.root := by
  induction mappings generalizing schema with
  | nil => rfl
  | cons mapping rest ih => exact ih (schema.push mapping)

theorem below_pushAll (mappings : List Mapping) :
    (schema.pushAll mappings).below = schema.below ++ mappings := by
  induction mappings generalizing schema with
  | nil => exact (List.append_nil _).symm
  | cons mapping rest ih =>
      have hrest := ih (schema.push mapping)
      rwa [push, List.append_assoc] at hrest

end Schema

mutual

theorem Entity.enter_eq {path : EntityPath} {keyColumn backReference : Option String}
    {multiplicity : Multiplicity} (put : Mapping → Schema) (entity : Entity) :
    entity.enter put path keyColumn multiplicity backReference =
      (entity.mappings path keyColumn multiplicity backReference).map
        fun found => (put found.1).pushAll found.2 := by
  obtain ⟨table, idColumn, columns, children⟩ := entity
  rw [Entity.enter, Entity.mappings]
  split
  · rfl
  · rw [Child.enter_eq _ children]
    cases Child.mappings path table [] children <;> rfl

/-- The mappings of a child and of all that is below it are entered before its siblings. -/
theorem Child.enter_eq {path : EntityPath} {table : String} {seen : List String} (schema : Schema)
    (children : List Child) :
    Child.enter path table seen schema children =
      (Child.mappings path table seen children).map schema.pushAll := by
  match children with
  | [] => rfl
  | ⟨property, multiplicity, keyColumn, backReference, entity⟩ :: rest =>
      rw [Child.enter, Child.mappings]
      split
      · rfl
      split
      · rfl
      rw [Entity.enter_eq schema.push entity]
      cases entity.mappings (path.child property) keyColumn multiplicity
          (some (backReference.getD (defaultBackReference table))) with
      | error flaw => rfl
      | ok found =>
          obtain ⟨child, below⟩ := found
          change Child.enter path table (property :: seen)
            ((schema.push child).pushAll below) rest = _
          rw [Child.enter_eq _ rest]
          cases Child.mappings path table (property :: seen) rest with
          | error flaw => rfl
          | ok others =>
              exact congrArg Except.ok (schema.pushAll_append (child :: below) others).symm

end

/-- An accepted aggregate has a name, and its schema starts with the mapping of its root entity and
goes on with those below it. -/
theorem Schema.ofAggregate_eq_ok_iff {aggregate : Aggregate} {schema : Schema} :
    ofAggregate aggregate = .ok schema ↔
      ¬ Text.isBlank aggregate.name ∧
      (aggregate.root.idColumn.isSome ∨ aggregate.root.children = []) ∧
      ∃ first below, aggregate.root.mappings .root none .single none = .ok (first, below) ∧
        schema = (start aggregate.name first).pushAll below := by
  have hroot : (aggregate.root.idColumn.isNone && !aggregate.root.children.isEmpty) = true ↔
      ¬ (aggregate.root.idColumn.isSome ∨ aggregate.root.children = []) := by
    cases aggregate.root.idColumn <;> simp
  rw [ofAggregate]
  split_ifs with hname hflawed
  · simp [hname]
  · simp [hroot.mp hflawed]
  · rw [Entity.enter_eq]
    cases aggregate.root.mappings .root none .single none with
    | error flaw => simp [Except.map, Except.mapError]
    | ok found =>
        have hid := not_not.mp (mt hroot.mpr hflawed)
        constructor
        · exact fun h => ⟨hname, hid, found.1, found.2, rfl, (Except.ok.inj h).symm⟩
        · rintro ⟨-, -, first, below, hfound, rfl⟩
          rw [Except.ok.inj hfound]
          rfl

end FlatAggregate
