import FlatAggregate.Proofs.Aggregate.Columns
import FlatAggregate.Proofs.Aggregate.Mappings
import FlatAggregate.Proofs.Aggregate.Paths
import FlatAggregate.Proofs.Builder.Acceptance
import FlatAggregate.Proofs.Plan.Naming

/-!
# The entities of a schema

The mappings of an aggregate come in pre-order, and every child keeps to a region of paths of its
own (`Mapping.Fill`). So an entity is new when its turn comes and its parent is there; the additions
of a schema are accepted, and there is a plan for every accepted aggregate (`Schema.exists_plan`).
The schema has names for all tables and columns of the plan (`Schema.knows_entities`).

An `addition` is a mapping as a table that is added below its parent, and `additions` are those of
all entities but the root, in order. A draft that adds the entities one by one is the draft that is
assembled of them (`Schema.draft_eq`), so what is known of assembled drafts holds of schemas.
-/

namespace FlatAggregate

def Mapping.addition (mapping : Mapping) : Addition EntityPath ColumnRef :=
  ⟨mapping.path.parent.getD .root, mapping.multiplicity, mapping.spec⟩

@[simp] theorem Mapping.spec_addition (mapping : Mapping) :
    mapping.addition.spec = mapping.spec := rfl

/-- Mappings with paths in a region. They can be attached wherever `path` is there, but nothing of
the region. -/
structure Mapping.Fill (path : EntityPath) (region : EntityPath → Prop) (mappings : List Mapping) :
    Prop where
  mem : ∀ mapping ∈ mappings, region mapping.path
  attachable : ∀ present : List EntityPath, path ∈ present → (∀ other ∈ present, ¬ region other) →
    Addition.Attachable present (mappings.map addition)

theorem Mapping.Fill.mono {path : EntityPath} {region region' : EntityPath → Prop}
    {mappings : List Mapping} (h : Fill path region mappings)
    (hregion : ∀ other, region other → region' other) : Fill path region' mappings where
  mem mapping hm := hregion _ (h.mem mapping hm)
  attachable present hpath hfree := h.attachable present hpath fun other ho hother =>
    hfree other ho (hregion other hother)

/-- The region of children: the paths that start with a property not yet seen. -/
def Child.Region (path : EntityPath) (seen : List String) (other : EntityPath) : Prop :=
  ∃ property, validProperty property ∧ property ∉ seen ∧ other.Within (path.child property)

def Entity.Region (path other : EntityPath) : Prop :=
  other.Within path ∧ other ≠ path

theorem Entity.Region.parent_isSome {path other : EntityPath} (h : Region path other) :
    other.parent.isSome := by
  rcases Relation.ReflTransGen.cases_head h.1 with heq | ⟨upper, hupper, -⟩
  · exact absurd heq h.2
  · exact Option.isSome_of_eq_some hupper

theorem Child.Region.entity {path other : EntityPath} {seen : List String}
    (h : Region path seen other) : Entity.Region path other := by
  obtain ⟨property, hvalid, -, hwithin⟩ := h
  have hparent : (path.child property).parent = some path := EntityPath.parent_child hvalid
  refine ⟨hwithin.tail hparent, ?_⟩
  rintro rfl
  exact EntityPath.Within.not_of_parent hparent hwithin

/-- What is within a child is not at the properties that are left after it. -/
theorem Child.Region.not_within {path other : EntityPath} {property : String} {seen : List String}
    (h : Region path (property :: seen) other) (hvalid : validProperty property) :
    ¬ other.Within (path.child property) := by
  obtain ⟨property', hvalid', hunseen, hother⟩ := h
  intro hwithin
  have heq := hwithin.eq_of_siblings hother (EntityPath.parent_child hvalid)
    (EntityPath.parent_child hvalid')
  exact hunseen (path.child_injective heq ▸ List.mem_cons_self)

theorem Child.Region.of_cons {path other : EntityPath} {property : String} {seen : List String}
    (h : Region path (property :: seen) other) : Region path seen other :=
  let ⟨property', hvalid, hunseen, hother⟩ := h
  ⟨property', hvalid, fun hmem => hunseen (List.mem_cons_of_mem _ hmem), hother⟩

theorem Mapping.Fill.child {path : EntityPath} {property : String} {seen : List String}
    {child : Mapping} {below others : List Mapping} (hvalid : validProperty property)
    (hseen : property ∉ seen) (hpath : child.path = path.child property)
    (hbelow : Fill child.path (Entity.Region child.path) below)
    (hothers : Fill path (Child.Region path (property :: seen)) others) :
    Fill path (Child.Region path seen) (child :: below ++ others) := by
  have hparent : child.path.parent = some path := hpath ▸ EntityPath.parent_child hvalid
  have hwithin : ∀ mapping ∈ child :: below, mapping.path.Within child.path := by
    intro mapping hm
    rcases List.mem_cons.mp hm with rfl | hm
    · exact .refl
    · exact (hbelow.mem mapping hm).1
  have hregion : ∀ {other : EntityPath}, other.Within child.path → Child.Region path seen other :=
    fun h => ⟨property, hvalid, hseen, hpath ▸ h⟩
  constructor
  · intro mapping hm
    rcases List.mem_append.mp hm with hm | hm
    · exact hregion (hwithin mapping hm)
    · exact (hothers.mem mapping hm).of_cons
  · intro present hpresent hfree
    rw [List.map_append, Addition.attachable_append, List.map_cons, Addition.attachable_cons]
    refine ⟨⟨?_, fun h => hfree _ h (hregion .refl), ?_⟩, ?_⟩
    · simpa [addition, hparent] using hpresent
    · refine hbelow.attachable _ (by simp) fun other ho ⟨hother, hne⟩ => ?_
      rcases List.mem_append.mp ho with ho | ho
      · exact hfree other ho (hregion hother)
      · exact hne (List.mem_singleton.mp ho)
    · refine hothers.attachable _ (List.mem_append_left _ hpresent) fun other ho hother => ?_
      rcases List.mem_append.mp ho with ho | ho
      · exact hfree other ho hother.of_cons
      · obtain ⟨mapping, hm, rfl⟩ : ∃ mapping ∈ child :: below, mapping.path = other := by
          simpa [eq_comm] using ho
        exact hother.not_within hvalid (hpath ▸ hwithin mapping hm)

section Inversion

variable {path : EntityPath} {keyColumn backReference : Option String}
  {multiplicity : Multiplicity} {entity : Entity} {table property : String} {seen : List String}
  {children : List Child}

/-- The mapping of an entity has what the entity declares, and what is below it comes from its
children. -/
theorem Entity.of_mappings {first : Mapping} {below : List Mapping}
    (h : entity.mappings path keyColumn multiplicity backReference = .ok (first, below)) :
    first = ⟨path, entity.table, entity.idColumn, entity.columns, keyColumn, backReference,
        multiplicity⟩ ∧
      Child.mappings path entity.table [] entity.children = .ok below := by
  obtain ⟨table, idColumn, columns, children⟩ := entity
  rw [mappings] at h
  split at h
  · cases h
  · obtain ⟨mappings, hmappings, h⟩ := exists_of_bind_eq_ok h
    obtain ⟨rfl, rfl⟩ := Prod.mk.inj (Except.ok.inj h)
    exact ⟨rfl, hmappings⟩

/-- The mappings of children are those of the first child, then those of its siblings. -/
theorem Child.of_mappings_cons {mappings : List Mapping}
    (h : Child.mappings path table seen
      (⟨property, multiplicity, keyColumn, backReference, entity⟩ :: children) = .ok mappings) :
    validProperty property ∧ property ∉ seen ∧ ∃ child below others,
      entity.mappings (path.child property) keyColumn multiplicity
        (some (backReference.getD (defaultBackReference table))) = .ok (child, below) ∧
      Child.mappings path table (property :: seen) children = .ok others ∧
      mappings = child :: below ++ others := by
  rw [Child.mappings] at h
  split at h
  · cases h
  rename_i hvalid
  split at h
  · cases h
  rename_i hseen
  obtain ⟨⟨child, below⟩, hchild, h⟩ := exists_of_bind_eq_ok h
  obtain ⟨others, hothers, h⟩ := exists_of_bind_eq_ok h
  obtain rfl := Except.ok.inj h
  exact ⟨by simpa using hvalid, hseen, child, below, others, hchild, hothers, rfl⟩

end Inversion

mutual

theorem Entity.fill_mappings {path : EntityPath} {keyColumn : Option String}
    {multiplicity : Multiplicity} {backReference : Option String} (entity : Entity)
    {first : Mapping} {below : List Mapping}
    (h : entity.mappings path keyColumn multiplicity backReference = .ok (first, below)) :
    first.path = path ∧ Mapping.Fill path (Entity.Region path) below := by
  obtain ⟨table, idColumn, columns, children⟩ := entity
  obtain ⟨rfl, hbelow⟩ := Entity.of_mappings h
  exact ⟨rfl, (Child.fill_mappings children hbelow).mono fun _ h => h.entity⟩

theorem Child.fill_mappings {path : EntityPath} {table : String} {seen : List String}
    (children : List Child) {mappings : List Mapping}
    (h : Child.mappings path table seen children = .ok mappings) :
    Mapping.Fill path (Child.Region path seen) mappings := by
  match children with
  | [] =>
      obtain rfl := Except.ok.inj h
      exact ⟨by simp, fun _ _ _ => trivial⟩
  | ⟨property, multiplicity, keyColumn, backReference, entity⟩ :: rest =>
      obtain ⟨hvalid, hseen, child, below, others, hchild, hothers, rfl⟩ :=
        Child.of_mappings_cons h
      obtain ⟨hpath, hbelow⟩ := Entity.fill_mappings entity hchild
      exact .child hvalid hseen hpath (hpath ▸ hbelow) (Child.fill_mappings rest hothers)

end

theorem mapError_bind {E E' A B : Type} (f : E → E') (x : Except E A) (g : A → Except E B) :
    (x >>= g).mapError f = x.mapError f >>= fun a => (g a).mapError f := by
  cases x <;> rfl

namespace Schema

variable {aggregate : Aggregate} {schema : Schema}

def additions (schema : Schema) : List (Addition EntityPath ColumnRef) :=
  schema.below.map Mapping.addition

theorem specs_additions (schema : Schema) :
    schema.root.spec :: schema.additions.map Addition.spec = schema.entities.map Mapping.spec := by
  rw [additions, List.map_map]
  rfl

/-- The mappings of an accepted aggregate are those of its root entity. -/
theorem mappings_of_ofAggregate (h : ofAggregate aggregate = .ok schema) :
    aggregate.root.mappings .root none .single none = .ok (schema.root, schema.below) ∧
      (aggregate.root.idColumn.isSome ∨ aggregate.root.children = []) := by
  obtain ⟨-, hroot, first, below, hmappings, rfl⟩ := ofAggregate_eq_ok_iff.mp h
  refine ⟨?_, hroot⟩
  rw [root_pushAll, below_pushAll]
  exact hmappings

/-- What is below the root of an accepted aggregate can be attached to it. -/
theorem fill_of_ofAggregate (h : ofAggregate aggregate = .ok schema) :
    schema.root.path = .root ∧ Mapping.Fill .root (Entity.Region .root) schema.below :=
  Entity.fill_mappings _ (mappings_of_ofAggregate h).1

theorem hasIdentity_of_ofAggregate (h : ofAggregate aggregate = .ok schema)
    (hbelow : schema.below ≠ []) : schema.root.spec.hasIdentity := by
  obtain ⟨hmappings, hroot⟩ := mappings_of_ofAggregate h
  obtain ⟨hfirst, hchildren⟩ := Entity.of_mappings hmappings
  rcases hroot with hid | hnil
  · have hspec : schema.root.spec.id.isSome := by
      simpa [hfirst, Mapping.spec, Mapping.id] using hid
    simp [TableSpec.hasIdentity, hspec]
  · rw [hnil] at hchildren
    exact absurd (Except.ok.inj hchildren).symm hbelow

theorem attachable_of_ofAggregate (h : ofAggregate aggregate = .ok schema) :
    Addition.Attachable [schema.root.path] schema.additions := by
  obtain ⟨hroot, hfill⟩ := fill_of_ofAggregate h
  rw [hroot]
  exact hfill.attachable [.root] (by simp) fun other ho hregion =>
    hregion.2 (List.mem_singleton.mp ho)

theorem nodup_paths_of_ofAggregate (h : ofAggregate aggregate = .ok schema) :
    (schema.entities.map Mapping.path).Nodup := by
  have hnodup := (attachable_of_ofAggregate h).nodup (List.nodup_singleton _)
  rw [additions, List.map_map] at hnodup
  exact hnodup

theorem exists_assemble_of_ofAggregate (h : ofAggregate aggregate = .ok schema) :
    ∃ draft, Draft.assemble schema.root.spec schema.additions = .ok draft := by
  refine Draft.exists_assemble_iff.mpr ⟨attachable_of_ofAggregate h, fun addition ha _ => ?_⟩
  refine hasIdentity_of_ofAggregate h fun hnil => ?_
  simp [additions, hnil] at ha

theorem foldlM_addEntity {mappings : List Mapping}
    (hparent : ∀ mapping ∈ mappings, mapping.path.parent.isSome)
    (start : Draft EntityPath ColumnRef) :
    mappings.foldlM schema.addEntity start =
      ((mappings.map Mapping.addition).foldlM Draft.add start).mapError .joinTree := by
  induction mappings generalizing start with
  | nil => rfl
  | cons mapping rest ih =>
      have hstep : schema.addEntity start mapping =
          (start.add mapping.addition).mapError .joinTree := by
        obtain ⟨parent, hmapping⟩ :=
          Option.isSome_iff_exists.mp (hparent mapping List.mem_cons_self)
        simp [addEntity, Draft.add, Mapping.addition, hmapping]
      rw [List.foldlM_cons, List.map_cons, List.foldlM_cons, mapError_bind, hstep]
      refine congrArg _ (funext fun next => ?_)
      exact ih (fun m hm => hparent m (List.mem_cons_of_mem _ hm)) next

/-- The draft of a schema is assembled from its root and its additions. -/
theorem draft_eq (h : ofAggregate aggregate = .ok schema) :
    schema.draft = (Draft.assemble schema.root.spec schema.additions).mapError .joinTree := by
  obtain ⟨-, hfill⟩ := fill_of_ofAggregate h
  have hparent : ∀ mapping ∈ schema.below, mapping.path.parent.isSome := fun mapping hm =>
    (hfill.mem mapping hm).parent_isSome
  rw [draft, Draft.assemble, mapError_bind]
  exact congrArg _ (funext fun start => foldlM_addEntity hparent start)

/-- A schema of an accepted aggregate has a plan, that of its assembled draft. -/
theorem exists_plan (h : ofAggregate aggregate = .ok schema) :
    ∃ draft plan, Draft.assemble schema.root.spec schema.additions = .ok draft ∧
      draft.plan = .ok plan ∧ schema.plan = .ok plan := by
  obtain ⟨draft, hdraft⟩ := exists_assemble_of_ofAggregate h
  obtain ⟨-, plan, hplan⟩ := Draft.plan_of_assemble hdraft
  refine ⟨draft, plan, hdraft, hplan, ?_⟩
  rw [Schema.plan, draft_eq h, hdraft]
  exact congrArg (Except.mapError SchemaError.joinTree) hplan

section Names

theorem exists_known {path : EntityPath} (h : path ∈ schema.entities.map Mapping.path) :
    ∃ found, schema.known path = .ok found := by
  obtain ⟨found, hfound⟩ := exists_entity?_iff.mpr h
  exact ⟨found, by rw [known, hfound]⟩

/-- The place in the index is that of the entity, because no other entity has its path. -/
theorem place?_of_getElem? (h : ofAggregate aggregate = .ok schema) {place : Nat}
    {mapping : Mapping} (hmapping : schema.entities[place]? = some mapping) :
    schema.place? mapping.path = some place := by
  obtain ⟨other, hother⟩ := schema.indexed.place mapping (List.mem_of_getElem? hmapping)
  obtain ⟨found, hfound, hpath⟩ := schema.indexed.mapping mapping.path other hother
  have hpaths : (schema.entities.map Mapping.path)[other]? =
      (schema.entities.map Mapping.path)[place]? := by
    change schema.entities[other]? = some found at hfound
    rw [List.getElem?_map, List.getElem?_map, hfound, hmapping, Option.map_some, hpath,
      Option.map_some]
  have hlt : other < (schema.entities.map Mapping.path).length := by
    rw [List.length_map]
    exact (List.getElem?_eq_some_iff.mp hfound).1
  rw [← (List.getElem?_inj hlt (nodup_paths_of_ofAggregate h)).mp hpaths]
  exact hother

theorem entity?_of_mem (h : ofAggregate aggregate = .ok schema) {mapping : Mapping}
    (hm : mapping ∈ schema.entities) : schema.entity? mapping.path = some mapping := by
  obtain ⟨place, hplace⟩ := List.mem_iff_getElem?.mp hm
  rw [entity?, place?_of_getElem? h hplace]
  exact hplace

theorem known_of_mem (h : ofAggregate aggregate = .ok schema) {mapping : Mapping}
    (hm : mapping ∈ schema.entities) : schema.known mapping.path = .ok mapping := by
  rw [known, entity?_of_mem h hm]

/-- A schema has names for the tables and columns of entities that it knows, whichever schema they
come from. -/
theorem knows_names {mappings : List Mapping}
    (h : ∀ mapping ∈ mappings, mapping.path ∈ schema.entities.map Mapping.path) :
    schema.names.Knows (mappings.map Mapping.spec) := by
  constructor
  · intro spec hspec
    obtain ⟨mapping, hm, rfl⟩ := List.mem_map.mp hspec
    obtain ⟨found, hfound⟩ := exists_known (h mapping hm)
    refine ⟨found.table, ?_⟩
    change (·.table) <$> schema.known mapping.path = .ok found.table
    rw [hfound]
    rfl
  · intro spec hspec token htoken
    obtain ⟨mapping, hm, rfl⟩ := List.mem_map.mp hspec
    obtain ⟨_, hmem, htoken⟩ := List.mem_flatMap.mp htoken
    obtain ⟨source, hsource, rfl⟩ := List.mem_map.mp hmem
    obtain ⟨owning, howning⟩ := exists_known (h mapping hm)
    obtain ⟨found, hfound⟩ := exists_known (h source hsource)
    rw [← Mapping.entity_of_mem_tokens htoken] at hfound
    change ∃ name, schema.foreignKeyName mapping.path token = .ok name
    simp only [foreignKeyName, howning, hfound, bind, Except.bind]
    cases owning.backReference with
    | none => exact ⟨_, rfl⟩
    | some backReference =>
      dsimp only
      split <;> exact ⟨_, rfl⟩

theorem knows_entities (schema : Schema) :
    schema.names.Knows (schema.entities.map Mapping.spec) :=
  knows_names fun _ hm => List.mem_map_of_mem hm

/-- The tokens of all tables are distinct if and only if no entity declares a column in two
roles. -/
theorem nodup_tokens_iff (h : ofAggregate aggregate = .ok schema) :
    ((schema.entities.map Mapping.spec).flatMap TableSpec.tokens).Nodup ↔
      ∀ mapping ∈ schema.entities, mapping.RolesDistinct := by
  have hdisjoint : schema.entities.Pairwise fun mapping mapping' =>
      List.Disjoint mapping.spec.tokens mapping'.spec.tokens := by
    refine (List.pairwise_map.mp (nodup_paths_of_ofAggregate h)).imp fun hne column hc hc' => ?_
    rw [← Mapping.entity_of_mem_tokens hc, ← Mapping.entity_of_mem_tokens hc'] at hne
    exact hne rfl
  rw [List.flatMap_map, List.nodup_flatMap, and_iff_left hdisjoint]
  exact forall₂_congr fun mapping _ => mapping.nodup_tokens_iff

end Names

end Schema

end FlatAggregate
