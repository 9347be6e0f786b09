import FlatAggregate.Proofs.Aggregate.Entities

/-!
# The entities above an entity

`Aggregate.descendants` lists the entities of a definition below the root, each with the entities
above it. In the schema of an accepted aggregate such a line of entities is a line of mappings in
which each one stands below the next (`Schema.Lineage`); so all entities above another one are
ancestors by their paths, and the foreign keys of a table are named after them: by its back
reference for the nearest one with an id, and by table and key for those in between.

A `Placed` is an entity with what leads to it, and a `Descendant` one with the line of those above.
`backReference`, `between` and `foreignKeyNames` give the names of its foreign keys on the
definition alone, with no schema and no plan in between.
-/

namespace FlatAggregate

/-- An entity of a definition, with its path and with what its property says of it. -/
structure Placed where
  path : EntityPath
  keyColumn : Option String
  /-- The back reference, if the definition names it. -/
  backReference : Option String
  entity : Entity

/-- An entity below the root, with the entities above it. -/
structure Descendant where
  self : Placed
  parent : Placed
  /-- The entities above the parent, the nearest one first. -/
  above : List Placed

mutual

def Entity.descendants (path : EntityPath) (keyColumn backReference : Option String)
    (above : List Placed) : Entity → List Descendant
  | ⟨table, idColumn, columns, children⟩ =>
    Child.descendants ⟨path, keyColumn, backReference, ⟨table, idColumn, columns, children⟩⟩ above
      children

def Child.descendants (parent : Placed) (above : List Placed) : List Child → List Descendant
  | [] => []
  | ⟨property, _, keyColumn, backReference, entity⟩ :: rest =>
    ⟨⟨parent.path.child property, keyColumn, backReference, entity⟩, parent, above⟩ ::
      entity.descendants (parent.path.child property) keyColumn backReference (parent :: above) ++
        Child.descendants parent above rest

end

def Aggregate.descendants (aggregate : Aggregate) : List Descendant :=
  aggregate.root.descendants .root none none []

def Placed.keyName? (placed : Placed) : Option String :=
  placed.keyColumn.map fun key => placed.entity.table ++ "_" ++ key

namespace Descendant

def backReference (descendant : Descendant) : String :=
  descendant.self.backReference.getD (defaultBackReference descendant.parent.entity.table)

def lineage (descendant : Descendant) : List Placed := descendant.parent :: descendant.above

/-- The entities between an entity and the nearest one above it with an id, outermost first. -/
def between (descendant : Descendant) : List Placed :=
  (descendant.lineage.takeWhile (·.entity.idColumn.isNone)).reverse

/-- The names of the foreign keys: the back reference, then the keys of the entities in between. -/
def foreignKeyNames (descendant : Descendant) : List String :=
  descendant.backReference :: descendant.between.filterMap Placed.keyName?

end Descendant

def Placed.mapping (placed : Placed) (multiplicity : Multiplicity) (backReference : Option String) :
    Mapping :=
  ⟨placed.path, placed.entity.table, placed.entity.idColumn, placed.entity.columns,
    placed.keyColumn, backReference, multiplicity⟩

def Placed.spec (placed : Placed) : TableSpec EntityPath ColumnRef :=
  (placed.mapping .single none).spec

namespace Schema

/-- An entity has a mapping in the schema, as have the entities above it, the nearest one first,
each of them at the parent of the path before it. -/
inductive Lineage (schema : Schema) : Placed → List Placed → Prop
  | root {placed : Placed} (hroot : schema.root = placed.mapping .single none)
      (hkey : placed.keyColumn = none) : Lineage schema placed []
  | child {placed parent : Placed} {above : List Placed} {multiplicity : Multiplicity}
      (hmem : placed.mapping multiplicity (some (placed.backReference.getD
        (defaultBackReference parent.entity.table))) ∈ schema.below)
      (hparent : placed.path.parent = some parent.path) (habove : Lineage schema parent above) :
    Lineage schema placed (parent :: above)

variable {aggregate : Aggregate} {schema : Schema} {placed parent ancestor : Placed}
  {above : List Placed}

namespace Lineage

theorem exists_known (h : schema.Lineage placed above)
    (hschema : ofAggregate aggregate = .ok schema) :
    ∃ multiplicity backReference,
      schema.known placed.path = .ok (placed.mapping multiplicity backReference) := by
  have hmem : ∃ multiplicity backReference,
      placed.mapping multiplicity backReference ∈ schema.entities := by
    cases h with
    | root hroot _ => exact ⟨_, _, List.mem_cons.mpr (.inl hroot.symm)⟩
    | child hmem _ _ => exact ⟨_, _, List.mem_cons_of_mem _ hmem⟩
  obtain ⟨multiplicity, backReference, hmem⟩ := hmem
  exact ⟨multiplicity, backReference, known_of_mem hschema hmem⟩

theorem of_mem (h : schema.Lineage placed above) : ∀ ancestor ∈ above,
    (∃ further, schema.Lineage ancestor further) ∧ ancestor.path.isAncestor placed.path := by
  induction h with
  | root => simp
  | child _ hparent habove ih =>
      rw [List.forall_mem_cons]
      refine ⟨⟨⟨_, habove⟩, (EntityPath.isAncestor_iff_of_parent hparent).mpr (.inl rfl)⟩, ?_⟩
      intro ancestor hmem
      obtain ⟨hlineage, hancestor⟩ := ih ancestor hmem
      exact ⟨hlineage, (EntityPath.isAncestor_iff_of_parent hparent).mpr (.inr hancestor)⟩

/-- Above every entity stands one with an id, for the root has one if anything is below it. -/
theorem exists_id (h : schema.Lineage placed above) (hschema : ofAggregate aggregate = .ok schema)
    (hne : above ≠ []) : ∃ ancestor ∈ above, ancestor.entity.idColumn.isSome := by
  induction h with
  | root => exact absurd rfl hne
  | @child _ parent above _ hmem _ habove ih =>
      cases habove with
      | root hroot hkey =>
          have hidentity := hasIdentity_of_ofAggregate hschema (List.ne_nil_of_mem hmem)
          refine ⟨parent, List.mem_cons_self, ?_⟩
          simpa [hroot, hkey, TableSpec.hasIdentity, Placed.mapping, Mapping.spec, Mapping.id,
            Mapping.key] using hidentity
      | child =>
          obtain ⟨ancestor, hancestor, hid⟩ := ih (List.cons_ne_nil _ _)
          exact ⟨ancestor, List.mem_cons_of_mem _ hancestor, hid⟩

theorem foreignKeyName_id (h : schema.Lineage placed (parent :: above))
    (hschema : ofAggregate aggregate = .ok schema) (hancestor : ancestor ∈ parent :: above)
    {id : String} (hid : ancestor.entity.idColumn = some id) :
    schema.foreignKeyName placed.path ⟨ancestor.path, id⟩ =
      .ok (placed.backReference.getD (defaultBackReference parent.entity.table)) := by
  obtain ⟨⟨further, hlineage⟩, hpath⟩ := h.of_mem ancestor hancestor
  obtain ⟨_, _, hknown⟩ := hlineage.exists_known hschema
  cases h with
  | child hmem _ _ =>
      have howning := known_of_mem hschema (List.mem_cons_of_mem _ hmem)
      simp only [Placed.mapping] at howning hknown
      simp [foreignKeyName, howning, hknown, hid, hpath, bind, Except.bind, pure, Except.pure]

theorem foreignKeyName_key (h : schema.Lineage placed above)
    (hschema : ofAggregate aggregate = .ok schema) (hancestor : ancestor ∈ above)
    (hid : ancestor.entity.idColumn = none) (key : String) :
    schema.foreignKeyName placed.path ⟨ancestor.path, key⟩ =
      .ok (ancestor.entity.table ++ "_" ++ key) := by
  obtain ⟨⟨further, hlineage⟩, -⟩ := h.of_mem ancestor hancestor
  obtain ⟨_, _, hknown⟩ := hlineage.exists_known hschema
  obtain ⟨_, backReference, howning⟩ := h.exists_known hschema
  simp only [Placed.mapping] at howning hknown
  cases backReference <;>
    simp [foreignKeyName, howning, hknown, hid, bind, Except.bind, pure, Except.pure]

end Lineage

end Schema

mutual

/-- The entities below an entity are those of its mappings, and they have their lineages. -/
theorem Entity.lineage_descendants {schema : Schema} {path : EntityPath}
    {keyColumn backReference given : Option String} {multiplicity : Multiplicity}
    {above : List Placed} (entity : Entity) {first : Mapping} {below : List Mapping}
    (h : entity.mappings path keyColumn multiplicity given = .ok (first, below))
    (hbelow : below ⊆ schema.below)
    (hlineage : schema.Lineage ⟨path, keyColumn, backReference, entity⟩ above) :
    (entity.descendants path keyColumn backReference above).map (·.self.path) =
        below.map Mapping.path ∧
      ∀ descendant ∈ entity.descendants path keyColumn backReference above,
        schema.Lineage descendant.self descendant.lineage := by
  obtain ⟨table, idColumn, columns, children⟩ := entity
  obtain ⟨-, hchildren⟩ := Entity.of_mappings h
  exact Child.lineage_descendants children hchildren hbelow hlineage

theorem Child.lineage_descendants {schema : Schema} {parent : Placed} {above : List Placed}
    {seen : List String} (children : List Child) {mappings : List Mapping}
    (h : Child.mappings parent.path parent.entity.table seen children = .ok mappings)
    (hbelow : mappings ⊆ schema.below) (hlineage : schema.Lineage parent above) :
    (Child.descendants parent above children).map (·.self.path) = mappings.map Mapping.path ∧
      ∀ descendant ∈ Child.descendants parent above children,
        schema.Lineage descendant.self descendant.lineage := by
  match children with
  | [] =>
      obtain rfl := Except.ok.inj h
      exact ⟨rfl, by simp [Child.descendants]⟩
  | ⟨property, multiplicity, keyColumn, backReference, entity⟩ :: rest =>
      obtain ⟨hvalid, -, child, below, others, hchild, hothers, rfl⟩ := Child.of_mappings_cons h
      obtain ⟨hmem, hrest⟩ := List.cons_subset.mp hbelow
      obtain ⟨hsubset, hsubset'⟩ := List.append_subset.mp hrest
      obtain ⟨rfl, -⟩ := Entity.of_mappings hchild
      have hself : schema.Lineage ⟨parent.path.child property, keyColumn, backReference, entity⟩
          (parent :: above) := .child hmem (EntityPath.parent_child hvalid) hlineage
      obtain ⟨hpaths, hlineages⟩ := Entity.lineage_descendants entity hchild hsubset hself
      obtain ⟨hpaths', hlineages'⟩ := Child.lineage_descendants rest hothers hsubset' hlineage
      rw [Child.descendants, List.map_append, List.map_cons, hpaths, hpaths', List.map_append,
        List.map_cons]
      refine ⟨rfl, ?_⟩
      rw [List.cons_append, List.forall_mem_cons, List.forall_mem_append]
      exact ⟨hself, hlineages, hlineages'⟩

end

/-- The entities below the root of an accepted aggregate are those of its schema, in order, and they
have their lineages. -/
theorem Aggregate.lineage_descendants {aggregate : Aggregate} {schema : Schema}
    (h : Schema.ofAggregate aggregate = .ok schema) :
    aggregate.descendants.map (·.self.path) = schema.below.map Mapping.path ∧
      ∀ descendant ∈ aggregate.descendants,
        schema.Lineage descendant.self descendant.lineage := by
  obtain ⟨hmappings, -⟩ := Schema.mappings_of_ofAggregate h
  obtain ⟨hroot, -⟩ := Entity.of_mappings hmappings
  exact aggregate.root.lineage_descendants hmappings (List.Subset.refl _) (.root hroot rfl)

end FlatAggregate
