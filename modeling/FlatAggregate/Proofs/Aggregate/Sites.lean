import FlatAggregate.Proofs.Aggregate.Entities

/-!
# Accepted aggregates

A site is an entity of a definition with the way that leads to it from the root, and
`Aggregate.sites` lists the sites in pre-order. An aggregate is accepted if and only if it is well
formed at all sites (`Aggregate.WellFormed`). Its schema then has the mappings of the sites in their
order, and finds each of them by its path and by no other (`Schema.Indexes`).
-/

namespace FlatAggregate

/-- An entity of a definition, with the children that lead to it from the root. -/
inductive Site where
  | root (entity : Entity)
  | under (parent : Site) (child : Child)

namespace Site

def entity : Site → Entity
  | root entity => entity
  | under _ child => child.entity

def path : Site → EntityPath
  | root _ => .root
  | under parent child => parent.path.child child.property

/-- The mapping of a site. The column with the parent's id is the one that the child names, else
the one named after the parent's table; a root has no parent, no key and occurs once. -/
def mapping : Site → Mapping
  | root entity =>
    { path := .root, table := entity.table, idColumn := entity.idColumn, columns := entity.columns
      keyColumn := none, backReference := none, multiplicity := .single }
  | under parent child =>
    { path := parent.path.child child.property, table := child.entity.table
      idColumn := child.entity.idColumn, columns := child.entity.columns
      keyColumn := child.keyColumn
      backReference := some (child.backReference.getD (parent.entity.table ++ "_id"))
      multiplicity := child.multiplicity }

@[simp] theorem path_mapping (site : Site) : site.mapping.path = site.path := by
  cases site <;> rfl

theorem mapping_eq (site : Site) :
    site.mapping = ⟨site.path, site.entity.table, site.entity.idColumn, site.entity.columns,
      site.mapping.keyColumn, site.mapping.backReference, site.mapping.multiplicity⟩ := by
  cases site <;> rfl

end Site

mutual

def Entity.sites (site : Site) : Entity → List Site
  | ⟨_, _, _, children⟩ => Child.sites site children

def Child.sites (parent : Site) : List Child → List Site
  | [] => []
  | ⟨property, multiplicity, keyColumn, backReference, entity⟩ :: rest =>
    let site := .under parent ⟨property, multiplicity, keyColumn, backReference, entity⟩
    site :: entity.sites site ++ Child.sites parent rest

end

def Aggregate.sites (aggregate : Aggregate) : List Site :=
  .root aggregate.root :: aggregate.root.sites (.root aggregate.root)

/-- The table of an entity has a name, and the properties of its children are names without dots,
each of one child only. -/
structure Entity.WellFormed (entity : Entity) : Prop where
  table : ¬ Text.isBlank entity.table
  property : ∀ child ∈ entity.children, child.property ≠ "" ∧ '.' ∉ child.property.toList
  nodup : (entity.children.map Child.property).Nodup

/-- An aggregate has a name, its root has an id or no children, and its entities are well formed. -/
structure Aggregate.WellFormed (aggregate : Aggregate) : Prop where
  name : ¬ Text.isBlank aggregate.name
  root : aggregate.root.idColumn.isSome ∨ aggregate.root.children = []
  entities : ∀ site ∈ aggregate.sites, site.entity.WellFormed

instance (entity : Entity) : Decidable entity.WellFormed :=
  decidable_of_iff
    (¬ Text.isBlank entity.table ∧
      (∀ child ∈ entity.children, child.property ≠ "" ∧ '.' ∉ child.property.toList) ∧
      (entity.children.map Child.property).Nodup)
    ⟨fun ⟨table, property, nodup⟩ => ⟨table, property, nodup⟩,
      fun ⟨table, property, nodup⟩ => ⟨table, property, nodup⟩⟩

instance (aggregate : Aggregate) : Decidable aggregate.WellFormed :=
  decidable_of_iff
    (¬ Text.isBlank aggregate.name ∧
      (aggregate.root.idColumn.isSome ∨ aggregate.root.children.isEmpty) ∧
      ∀ site ∈ aggregate.sites, site.entity.WellFormed)
    ⟨fun ⟨name, root, entities⟩ => ⟨name, root.imp_right List.isEmpty_iff.mp, entities⟩,
      fun ⟨name, root, entities⟩ => ⟨name, root.imp_right List.isEmpty_iff.mpr, entities⟩⟩

mutual

/-- Among the sites below a site, one that is not directly below it comes after its parent. -/
theorem Entity.mem_before_of_sites {site parent : Site} {child : Child} {before after : List Site}
    (entity : Entity) (h : entity.sites site = before ++ .under parent child :: after) :
    parent = site ∧ child ∈ entity.children ∨ parent ∈ before ∧ child ∈ parent.entity.children := by
  obtain ⟨table, idColumn, columns, children⟩ := entity
  exact Child.mem_before_of_sites children h

theorem Child.mem_before_of_sites {site parent : Site} {child : Child} {before after : List Site}
    (children : List Child)
    (h : Child.sites site children = before ++ .under parent child :: after) :
    parent = site ∧ child ∈ children ∨ parent ∈ before ∧ child ∈ parent.entity.children := by
  match children with
  | [] => simp [Child.sites] at h
  | ⟨property, multiplicity, keyColumn, backReference, entity⟩ :: rest =>
      rw [Child.sites, List.cons_append] at h
      cases before with
      | nil =>
          obtain ⟨rfl, rfl⟩ := Site.under.inj (List.cons.inj h).1
          exact .inl ⟨rfl, List.mem_cons_self⟩
      | cons first before =>
          obtain ⟨rfl, htail⟩ := List.cons.inj h
          -- the site is among those below the first child, or among those of its siblings
          rcases List.append_eq_append_iff.mp htail with
            ⟨between, rfl, hrest⟩ | ⟨between, hbelow, hrest⟩
          · rcases Child.mem_before_of_sites rest hrest with ⟨hparent, hchild⟩ | ⟨hparent, hchild⟩
            · exact .inl ⟨hparent, List.mem_cons_of_mem _ hchild⟩
            · exact .inr ⟨by simp [hparent], hchild⟩
          · cases between with
            | nil =>
                have hrest : Child.sites site rest = [] ++ .under parent child :: after :=
                  hrest.symm
                rcases Child.mem_before_of_sites rest hrest with ⟨hparent, hchild⟩ | ⟨hparent, -⟩
                · exact .inl ⟨hparent, List.mem_cons_of_mem _ hchild⟩
                · cases hparent
            | cons next between =>
                obtain ⟨rfl, -⟩ := List.cons.inj hrest
                rcases Entity.mem_before_of_sites entity hbelow with
                  ⟨rfl, hchild⟩ | ⟨hparent, hchild⟩
                · exact .inr ⟨List.mem_cons_self, hchild⟩
                · exact .inr ⟨List.mem_cons_of_mem _ hparent, hchild⟩

end

theorem Child.under_mem_sites {site : Site} {child : Child} {children : List Child}
    (h : child ∈ children) : .under site child ∈ Child.sites site children := by
  induction children with
  | nil => cases h
  | cons first rest ih =>
      obtain ⟨property, multiplicity, keyColumn, backReference, entity⟩ := first
      rw [Child.sites, List.cons_append]
      rcases List.mem_cons.mp h with rfl | h
      · exact List.mem_cons_self
      · exact List.mem_cons_of_mem _ (List.mem_append_right _ (ih h))

theorem Entity.under_mem_sites_of_mem_children {site : Site} {entity : Entity} {child : Child}
    (h : child ∈ entity.children) : .under site child ∈ entity.sites site := by
  cases entity
  exact Child.under_mem_sites h

mutual

theorem Entity.under_mem_sites {site parent : Site} {child : Child} (entity : Entity)
    (h : parent ∈ entity.sites site) (hchild : child ∈ parent.entity.children) :
    .under parent child ∈ entity.sites site := by
  obtain ⟨table, idColumn, columns, children⟩ := entity
  exact Child.under_mem_sites_of_mem children h hchild

theorem Child.under_mem_sites_of_mem {site parent : Site} {child : Child} (children : List Child)
    (h : parent ∈ Child.sites site children) (hchild : child ∈ parent.entity.children) :
    .under parent child ∈ Child.sites site children := by
  match children with
  | [] => cases h
  | ⟨property, multiplicity, keyColumn, backReference, entity⟩ :: rest =>
      rw [Child.sites, List.cons_append] at h ⊢
      apply List.mem_cons_of_mem
      rcases List.mem_cons.mp h with rfl | h
      · exact List.mem_append_left _ (Entity.under_mem_sites_of_mem_children hchild)
      · rcases List.mem_append.mp h with h | h
        · exact List.mem_append_left _ (Entity.under_mem_sites entity h hchild)
        · exact List.mem_append_right _ (Child.under_mem_sites_of_mem rest h hchild)

end

section Acceptance

theorem Entity.not_isBlank_of_mappings {path : EntityPath} {keyColumn backReference : Option String}
    {multiplicity : Multiplicity} {entity : Entity} {result : Mapping × List Mapping}
    (h : entity.mappings path keyColumn multiplicity backReference = .ok result) :
    ¬ Text.isBlank entity.table := by
  obtain ⟨table, idColumn, columns, children⟩ := entity
  rw [mappings] at h
  split at h
  · cases h
  · assumption

mutual

theorem Entity.wellFormed_of_mappings (site : Site) {path : EntityPath}
    {keyColumn backReference : Option String} {multiplicity : Multiplicity} (entity : Entity)
    {first : Mapping} {below : List Mapping}
    (h : entity.mappings path keyColumn multiplicity backReference = .ok (first, below)) :
    entity.WellFormed ∧ ∀ other ∈ entity.sites site, other.entity.WellFormed := by
  obtain ⟨table, idColumn, columns, children⟩ := entity
  obtain ⟨-, hchildren⟩ := Entity.of_mappings h
  obtain ⟨hproperty, hnodup, hsites⟩ := Child.wellFormed_of_mappings site children hchildren
  exact ⟨⟨Entity.not_isBlank_of_mappings h, fun child hchild => (hproperty child hchild).1, hnodup⟩,
    hsites⟩

theorem Child.wellFormed_of_mappings (site : Site) {path : EntityPath} {table : String}
    {seen : List String} (children : List Child) {mappings : List Mapping}
    (h : Child.mappings path table seen children = .ok mappings) :
    (∀ child ∈ children,
      (child.property ≠ "" ∧ '.' ∉ child.property.toList) ∧ child.property ∉ seen) ∧
    (children.map Child.property).Nodup ∧
    ∀ other ∈ Child.sites site children, other.entity.WellFormed := by
  match children with
  | [] => exact ⟨by simp, List.nodup_nil, by simp [Child.sites]⟩
  | ⟨property, multiplicity, keyColumn, backReference, entity⟩ :: rest =>
      obtain ⟨hvalid, hseen, child, below, others, hchild, hothers, rfl⟩ := Child.of_mappings_cons h
      obtain ⟨hself, hbelow⟩ := Entity.wellFormed_of_mappings
        (.under site ⟨property, multiplicity, keyColumn, backReference, entity⟩) entity hchild
      obtain ⟨hproperty, hnodup, hrest⟩ := Child.wellFormed_of_mappings site rest hothers
      refine ⟨?_, ?_, ?_⟩
      · rw [List.forall_mem_cons]
        refine ⟨⟨validProperty_iff.mp hvalid, hseen⟩, fun other ho => ?_⟩
        exact (hproperty other ho).imp_right fun hnot hmem => hnot (List.mem_cons_of_mem _ hmem)
      · rw [List.map_cons, List.nodup_cons]
        refine ⟨fun hmem => ?_, hnodup⟩
        obtain ⟨other, ho, rfl⟩ := List.mem_map.mp hmem
        exact (hproperty other ho).2 List.mem_cons_self
      · rw [Child.sites, List.cons_append, List.forall_mem_cons, List.forall_mem_append]
        exact ⟨hself, hbelow, hrest⟩

end

mutual

theorem Entity.mappings_eq_ok {site : Site} (entity : Entity) (hsite : site.entity = entity)
    (hself : entity.WellFormed) (hsites : ∀ other ∈ entity.sites site, other.entity.WellFormed) :
    entity.mappings site.path site.mapping.keyColumn site.mapping.multiplicity
      site.mapping.backReference = .ok (site.mapping, (entity.sites site).map Site.mapping) := by
  obtain ⟨table, idColumn, columns, children⟩ := entity
  have hchildren := Child.mappings_eq_ok [] children hself.property hself.nodup (by simp) hsites
  rw [hsite] at hchildren
  have hmapping := site.mapping_eq
  rw [hsite] at hmapping
  rw [Entity.mappings, if_neg hself.table, hchildren, Entity.sites]
  exact congrArg (fun first => Except.ok (first, (Child.sites site children).map Site.mapping))
    hmapping.symm

theorem Child.mappings_eq_ok {site : Site} (seen : List String) (children : List Child)
    (hproperty : ∀ child ∈ children, child.property ≠ "" ∧ '.' ∉ child.property.toList)
    (hnodup : (children.map Child.property).Nodup)
    (hseen : ∀ child ∈ children, child.property ∉ seen)
    (hsites : ∀ other ∈ Child.sites site children, other.entity.WellFormed) :
    Child.mappings site.path site.entity.table seen children =
      .ok ((Child.sites site children).map Site.mapping) := by
  match children with
  | [] => rfl
  | ⟨property, multiplicity, keyColumn, backReference, entity⟩ :: rest =>
      rw [Child.sites, List.cons_append, List.forall_mem_cons, List.forall_mem_append] at hsites
      rw [List.map_cons, List.nodup_cons] at hnodup
      rw [List.forall_mem_cons] at hproperty hseen
      obtain ⟨hself, hbelow, hrest⟩ := hsites
      have hchild := Entity.mappings_eq_ok entity rfl hself hbelow
      have hothers := Child.mappings_eq_ok (property :: seen) rest hproperty.2 hnodup.2
        (fun other ho hmem => by
          rcases List.mem_cons.mp hmem with heq | hmem
          · exact hnodup.1 (List.mem_map.mpr ⟨other, ho, heq⟩)
          · exact hseen.2 other ho hmem) hrest
      have hvalid : validProperty property := validProperty_iff.mpr hproperty.1
      rw [Child.mappings, if_neg (by simp [hvalid]), if_neg hseen.1]
      simp only [Site.path, Site.mapping] at hchild
      simp only [defaultBackReference, hchild, hothers]
      rw [Child.sites, List.cons_append, List.map_cons, List.map_append]
      rfl

end

theorem Aggregate.mem_before_of_sites {aggregate : Aggregate} {parent : Site} {child : Child}
    {before after : List Site} (h : aggregate.sites = before ++ .under parent child :: after) :
    parent ∈ before ∧ child ∈ parent.entity.children := by
  cases before with
  | nil => cases (List.cons.inj h).1
  | cons first before =>
      obtain ⟨rfl, hbelow⟩ := List.cons.inj h
      rcases Entity.mem_before_of_sites _ hbelow with ⟨rfl, hchild⟩ | ⟨hparent, hchild⟩
      · exact ⟨List.mem_cons_self, hchild⟩
      · exact ⟨List.mem_cons_of_mem _ hparent, hchild⟩

theorem Aggregate.under_mem_sites {aggregate : Aggregate} {parent : Site} {child : Child}
    (hparent : parent ∈ aggregate.sites) (hchild : child ∈ parent.entity.children) :
    .under parent child ∈ aggregate.sites := by
  apply List.mem_cons_of_mem
  rcases List.mem_cons.mp hparent with rfl | hparent
  · exact Entity.under_mem_sites_of_mem_children hchild
  · exact Entity.under_mem_sites _ hparent hchild

theorem Entity.WellFormed.parent_path_under {parent : Site} {child : Child}
    (h : parent.entity.WellFormed) (hchild : child ∈ parent.entity.children) :
    (Site.under parent child).mapping.path.parent = some parent.mapping.path := by
  rw [Site.path_mapping, Site.path_mapping]
  exact EntityPath.parent_child (validProperty_iff.mpr (h.property child hchild))

theorem Schema.exists_ofAggregate_iff {aggregate : Aggregate} :
    (∃ schema, ofAggregate aggregate = .ok schema) ↔ aggregate.WellFormed := by
  constructor
  · rintro ⟨schema, h⟩
    obtain ⟨hname, hroot, first, below, hmappings, -⟩ := ofAggregate_eq_ok_iff.mp h
    obtain ⟨hself, hsites⟩ := Entity.wellFormed_of_mappings (.root aggregate.root) _ hmappings
    exact ⟨hname, hroot, List.forall_mem_cons.mpr ⟨hself, hsites⟩⟩
  · intro h
    obtain ⟨hself, hsites⟩ := List.forall_mem_cons.mp h.entities
    have hmappings := aggregate.root.mappings_eq_ok rfl hself hsites
    exact ⟨_, ofAggregate_eq_ok_iff.mpr ⟨h.name, h.root, _, _, hmappings, rfl⟩⟩

theorem Schema.ofAggregate_eq_error {aggregate : Aggregate} {error : SchemaError}
    (h : ofAggregate aggregate = .error error) : ∃ flaw, error = .invalid aggregate.name flaw := by
  rw [ofAggregate] at h
  split_ifs at h
  · exact ⟨_, (Except.error.inj h).symm⟩
  · exact ⟨_, (Except.error.inj h).symm⟩
  · cases hentered : aggregate.root.enter (start aggregate.name) .root none .single none with
    | ok schema =>
        rw [hentered] at h
        cases h
    | error flaw =>
        rw [hentered] at h
        exact ⟨flaw, (Except.error.inj h).symm⟩

end Acceptance

namespace Schema

variable {aggregate : Aggregate} {schema : Schema}

/-- A schema has the entities of an aggregate: those of its sites in pre-order, each below its
parent, which comes before it. Their paths differ, and each is found by its own path only. -/
structure Indexes (schema : Schema) (aggregate : Aggregate) : Prop where
  name : schema.name = aggregate.name
  entities : schema.entities = aggregate.sites.map Site.mapping
  nodup_paths : (schema.entities.map Mapping.path).Nodup
  place?_eq_some_iff : ∀ place mapping, schema.entities[place]? = some mapping → ∀ path,
    schema.place? path = some place ↔ path = mapping.path
  entity?_eq_some_iff : ∀ mapping ∈ schema.entities, ∀ path,
    schema.entity? path = some mapping ↔ path = mapping.path
  entity?_eq_none_iff : ∀ path,
    schema.entity? path = none ↔ path ∉ schema.entities.map Mapping.path
  parent : ∀ before parent child after, aggregate.sites = before ++ .under parent child :: after →
    parent ∈ before ∧ child ∈ parent.entity.children ∧
      (Site.under parent child).mapping.path.parent = some parent.mapping.path
  children : ∀ parent ∈ aggregate.sites, ∀ child ∈ parent.entity.children,
    .under parent child ∈ aggregate.sites

theorem entities_of_ofAggregate (h : ofAggregate aggregate = .ok schema) :
    schema.entities = aggregate.sites.map Site.mapping := by
  obtain ⟨hself, hsites⟩ := List.forall_mem_cons.mp (exists_ofAggregate_iff.mp ⟨schema, h⟩).entities
  have hmappings := aggregate.root.mappings_eq_ok rfl hself hsites
  obtain ⟨hroot, hbelow⟩ := Prod.mk.inj <| Except.ok.inj <|
    (mappings_of_ofAggregate h).1.symm.trans hmappings
  rw [Schema.entities, hroot, hbelow, Aggregate.sites, List.map_cons]

theorem indexes_of_ofAggregate (h : ofAggregate aggregate = .ok schema) :
    schema.Indexes aggregate where
  name := by
    obtain ⟨-, -, first, below, -, rfl⟩ := ofAggregate_eq_ok_iff.mp h
    exact name_pushAll _ below
  entities := entities_of_ofAggregate h
  nodup_paths := nodup_paths_of_ofAggregate h
  place?_eq_some_iff place mapping hmapping path := by
    constructor
    · intro hplace
      obtain ⟨other, hother, hpath⟩ := schema.indexed.mapping path place hplace
      rw [← hpath, Option.some.inj (hother.symm.trans hmapping)]
    · rintro rfl
      exact place?_of_getElem? h hmapping
  entity?_eq_some_iff mapping hm path := by
    constructor
    · exact fun hfound => (mem_of_entity? hfound).2.symm
    · rintro rfl
      exact entity?_of_mem h hm
  entity?_eq_none_iff _ := entity?_eq_none_iff
  parent _ _ _ _ hsites := by
    obtain ⟨hparent, hchild⟩ := Aggregate.mem_before_of_sites hsites
    have hwell := (exists_ofAggregate_iff.mp ⟨schema, h⟩).entities
    have hmem := hsites ▸ List.mem_append_left _ hparent
    exact ⟨hparent, hchild, (hwell _ hmem).parent_path_under hchild⟩
  children _ hparent _ hchild := Aggregate.under_mem_sites hparent hchild

/-- An aggregate is accepted if and only if it is well formed, and else refused as invalid under its
name. What is accepted has a schema that indexes it. -/
theorem ofAggregate_indexes (aggregate : Aggregate) :
    (aggregate.WellFormed → ∃ schema, ofAggregate aggregate = .ok schema ∧
      schema.Indexes aggregate) ∧
    (¬ aggregate.WellFormed →
      ∃ flaw, ofAggregate aggregate = .error (.invalid aggregate.name flaw)) := by
  constructor
  · intro hwell
    obtain ⟨schema, h⟩ := exists_ofAggregate_iff.mpr hwell
    exact ⟨schema, h, indexes_of_ofAggregate h⟩
  · intro hwell
    cases h : ofAggregate aggregate with
    | ok schema => exact absurd (exists_ofAggregate_iff.mp ⟨schema, h⟩) hwell
    | error error =>
        obtain ⟨flaw, rfl⟩ := ofAggregate_eq_error h
        exact ⟨flaw, rfl⟩

/-- An order with lines that have notes, and one with two children at the same property. -/
theorem ofAggregate_indexes_order :
    let note : Entity := { table := "note", columns := ["text"] }
    let line : Entity :=
      { table := "line", idColumn := some "id"
        children := [{ property := "notes", entity := note }] }
    let aggregate : Aggregate := ⟨"order",
      { table := "orders", idColumn := some "id"
        children := [{ property := "lines", keyColumn := some "position", entity := line },
          { property := "notes", backReference := some "order", entity := note }] }⟩
    let refused : Aggregate := ⟨"order",
      { table := "orders", idColumn := some "id"
        children := [{ property := "notes", entity := line },
          { property := "notes", entity := note }] }⟩
    (∃ schema, ofAggregate aggregate = .ok schema ∧ schema.Indexes aggregate) ∧
      ∃ flaw, ofAggregate refused = .error (.invalid "order" flaw) := by
  intro note line aggregate refused
  exact ⟨(ofAggregate_indexes aggregate).1 (by decide), (ofAggregate_indexes refused).2 (by decide)⟩

end Schema

end FlatAggregate
