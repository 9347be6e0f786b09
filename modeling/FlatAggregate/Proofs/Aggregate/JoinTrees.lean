import FlatAggregate.Proofs.Aggregate.Entities

/-!
# The join tree of an aggregate definition

The join tree of a definition is given by recursion on the definition: the table of an entity is
joined with the tree of each of its children, in the order of the definition. Its tables are the
entities of the schema, in the same order (`Aggregate.specs_joinTree`), and it is the join tree that
the additions of the schema make up (`Aggregate.joinTree_ofAdditions`).

The additions are one flat list, in which all that is below a child stands between the child and its
next sibling. That the branches are found in it again rests on the regions of the paths: the parent
of what comes later is never within the path of an earlier sibling.

`Entity.joinTree` and `Child.joinAll` are the recursion, and `Entity.tableSpec` is the table of an
entity at a path, in which columns that are declared twice are taken once.
-/

namespace FlatAggregate

def Entity.tableSpec (path : EntityPath) (keyColumn : Option String) (entity : Entity) :
    TableSpec EntityPath ColumnRef where
  table := path
  id := entity.idColumn.map (ColumnRef.mk path)
  columns := (entity.columns.map (ColumnRef.mk path)).eraseDups
  key := keyColumn.map (ColumnRef.mk path)

mutual

def Entity.joinTree (path : EntityPath) (keyColumn : Option String) :
    Entity → JoinTree EntityPath ColumnRef
  | ⟨table, idColumn, columns, children⟩ =>
    Child.joinAll path
      (.table (Entity.tableSpec path keyColumn ⟨table, idColumn, columns, children⟩)) children

def Child.joinAll (path : EntityPath) (soFar : JoinTree EntityPath ColumnRef) :
    List Child → JoinTree EntityPath ColumnRef
  | [] => soFar
  | ⟨property, multiplicity, keyColumn, _, entity⟩ :: rest =>
    Child.joinAll path
      (.join soFar (entity.joinTree (path.child property) keyColumn) multiplicity path) rest

end

def Aggregate.joinTree (aggregate : Aggregate) : JoinTree EntityPath ColumnRef :=
  aggregate.root.joinTree .root none

section Columns

/-- Adding columns one by one takes each of them once, at its first place. -/
theorem TableSpec.columns_withColumns {T C : Type} [DecidableEq C] (spec : TableSpec T C)
    (h : spec.columns = []) (columns : List C) :
    (spec.withColumns columns).columns = columns.eraseDups := by
  induction columns using List.reverseRecOn with
  | nil => exact h
  | append_singleton columns column ih =>
      have hmem : column ∈ (spec.withColumns columns).columns ↔ column ∈ columns := by
        simp [mem_columns_withColumns, h]
      rw [withColumns_append, columns_withColumns_singleton, List.eraseDups_append, ih]
      by_cases hc : column ∈ columns
      · rw [if_pos (ih ▸ hmem.mpr hc)]
        simp [List.removeAll, hc]
      · rw [if_neg fun hin => hc (hmem.mp (ih ▸ hin))]
        simp [List.removeAll, hc, List.eraseDups_cons]

theorem Mapping.spec_eq (mapping : Mapping) :
    mapping.spec = { table := mapping.path, id := mapping.id, columns := mapping.refs.eraseDups,
                     key := mapping.key } := by
  have hcolumns : (TableSpec.withColumns { table := mapping.path } mapping.refs).columns =
      mapping.refs.eraseDups := TableSpec.columns_withColumns _ rfl mapping.refs
  rw [spec, hcolumns]
  rfl

end Columns

mutual

theorem Entity.specs_joinTree {path : EntityPath} {keyColumn : Option String}
    {multiplicity : Multiplicity} {backReference : Option String} (entity : Entity)
    {first : Mapping} {below : List Mapping}
    (h : entity.mappings path keyColumn multiplicity backReference = .ok (first, below)) :
    (entity.joinTree path keyColumn).specs = (first :: below).map Mapping.spec := by
  obtain ⟨table, idColumn, columns, children⟩ := entity
  obtain ⟨rfl, hbelow⟩ := Entity.of_mappings h
  rw [Entity.joinTree, Child.specs_joinAll children hbelow, List.map_cons, Mapping.spec_eq]
  rfl

theorem Child.specs_joinAll {path : EntityPath} {table : String} {seen : List String}
    (children : List Child) {mappings : List Mapping}
    (h : Child.mappings path table seen children = .ok mappings)
    (soFar : JoinTree EntityPath ColumnRef) :
    (Child.joinAll path soFar children).specs = soFar.specs ++ mappings.map Mapping.spec := by
  match children with
  | [] =>
      obtain rfl := Except.ok.inj h
      rw [Child.joinAll, List.map_nil, List.append_nil]
  | ⟨property, multiplicity, keyColumn, backReference, entity⟩ :: rest =>
      obtain ⟨-, -, child, below, others, hchild, hothers, rfl⟩ := Child.of_mappings_cons h
      rw [Child.joinAll, Child.specs_joinAll rest hothers, JoinTree.specs,
        Entity.specs_joinTree entity hchild, List.map_append, List.append_assoc]

end

section Branches

theorem Mapping.parent_addition {mapping : Mapping} {above : EntityPath}
    (h : mapping.path.parent = some above) : mapping.addition.parent = above := by
  rw [addition, h, Option.getD_some]

/-- What is below an entity has its parent within the path of the entity, not further up. -/
theorem Mapping.Fill.parent_ne {path above : EntityPath} {below : List Mapping}
    (h : Fill path (Entity.Region path) below) (habove : path.parent = some above) :
    ∀ addition ∈ below.map Mapping.addition, addition.parent ≠ above := by
  intro addition ha heq
  obtain ⟨mapping, hm, rfl⟩ := List.mem_map.mp ha
  obtain ⟨hwithin, hne⟩ := h.mem mapping hm
  rcases Relation.ReflTransGen.cases_head hwithin with hpath | ⟨upper, hupper, hrest⟩
  · exact hne hpath
  · rw [parent_addition hupper] at heq
    exact EntityPath.Within.not_of_parent habove (heq ▸ hrest)

/-- What comes after a child has no parent within the path of that child. -/
theorem Mapping.Fill.parent_not_within {path : EntityPath} {property : String}
    {seen : List String} {others : List Mapping}
    (h : Fill path (Child.Region path (property :: seen)) others)
    (hvalid : validProperty property) :
    ∀ addition ∈ others.map Mapping.addition,
      ¬ addition.parent.Within (path.child property) := by
  intro addition ha hwithin
  obtain ⟨mapping, hm, rfl⟩ := List.mem_map.mp ha
  obtain ⟨property', hvalid', hunseen, hmapping⟩ := h.mem mapping hm
  rcases Relation.ReflTransGen.cases_head hmapping with heq | ⟨upper, hupper, hrest⟩
  · rw [parent_addition (heq ▸ EntityPath.parent_child hvalid')] at hwithin
    exact EntityPath.Within.not_of_parent (EntityPath.parent_child hvalid) hwithin
  · rw [parent_addition hupper] at hwithin
    exact Child.Region.not_within ⟨property', hvalid', hunseen, hrest⟩ hvalid hwithin

mutual

/-- Wherever the additions of an entity stand, they make up its tree, if nothing that comes later
belongs below the entity. -/
theorem Entity.joinTree_ofAdditions {path : EntityPath} {keyColumn : Option String}
    {multiplicity : Multiplicity} {backReference : Option String} (entity : Entity)
    {first : Mapping} {below : List Mapping}
    (h : entity.mappings path keyColumn multiplicity backReference = .ok (first, below))
    (later : List (Addition EntityPath ColumnRef))
    (hlater : ∀ addition ∈ later, ¬ addition.parent.Within path) :
    (AggregateTree.ofAdditions first.spec (below.map Mapping.addition ++ later)).joinTree =
      entity.joinTree path keyColumn := by
  obtain ⟨table, idColumn, columns, children⟩ := entity
  obtain ⟨rfl, hbelow⟩ := Entity.of_mappings h
  rw [AggregateTree.ofAdditions, AggregateTree.joinTree, Entity.joinTree, Mapping.spec_eq]
  refine Child.joinAll_ofAdditions children hbelow later (fun addition ha => ⟨?_, ?_⟩) _
  · exact fun heq => hlater addition ha (heq ▸ .refl)
  · exact fun hregion => hlater addition ha hregion.entity.1

/-- Wherever the additions of children stand, they make up their branches, if nothing that comes
later is one of these children or belongs below them. -/
theorem Child.joinAll_ofAdditions {path : EntityPath} {table : String} {seen : List String}
    (children : List Child) {mappings : List Mapping}
    (h : Child.mappings path table seen children = .ok mappings)
    (later : List (Addition EntityPath ColumnRef))
    (hlater : ∀ addition ∈ later, addition.parent ≠ path ∧ ¬ Child.Region path seen addition.parent)
    (soFar : JoinTree EntityPath ColumnRef) :
    AggregateBranch.joinAll path soFar
        (AggregateBranch.ofAdditions path (mappings.map Mapping.addition ++ later)) =
      Child.joinAll path soFar children := by
  match children with
  | [] =>
      obtain rfl := Except.ok.inj h
      have hnone := AggregateBranch.ofAdditions_append_of_forall_ne
        (fun addition ha => (hlater addition ha).1) []
      rw [List.append_nil] at hnone
      rw [List.map_nil, List.nil_append, hnone, AggregateBranch.ofAdditions,
        AggregateBranch.joinAll, Child.joinAll]
  | ⟨property, multiplicity, keyColumn, backReference, entity⟩ :: rest =>
      obtain ⟨hvalid, hseen, child, below, others, hchild, hothers, rfl⟩ :=
        Child.of_mappings_cons h
      have hparent : (path.child property).parent = some path := EntityPath.parent_child hvalid
      have hpath : child.path = path.child property := (Entity.fill_mappings entity hchild).1
      have haddition : child.addition = ⟨path, multiplicity, child.spec⟩ := by
        rw [Mapping.addition, hpath, hparent, (Entity.of_mappings hchild).1]
        rfl
      have hbelow : ∀ addition ∈ below.map Mapping.addition, addition.parent ≠ path :=
        (Entity.fill_mappings entity hchild).2.parent_ne hparent
      have hrest : ∀ addition ∈ others.map Mapping.addition ++ later,
          ¬ addition.parent.Within (path.child property) := by
        intro addition ha hwithin
        rcases List.mem_append.mp ha with ha | ha
        · exact (Child.fill_mappings rest hothers).parent_not_within hvalid addition ha hwithin
        · exact (hlater addition ha).2 ⟨property, hvalid, hseen, hwithin⟩
      have htree := Entity.joinTree_ofAdditions entity hchild _ hrest
      rw [AggregateTree.ofAdditions, Mapping.table_spec, hpath] at htree
      rw [List.cons_append, List.map_cons, List.map_append, List.cons_append, List.append_assoc,
        haddition, AggregateBranch.ofAdditions, if_pos rfl, Mapping.table_spec, hpath,
        AggregateBranch.ofAdditions_append_of_forall_ne hbelow, AggregateBranch.joinAll, htree,
        Child.joinAll]
      exact Child.joinAll_ofAdditions rest hothers later
        (fun addition ha => ⟨(hlater addition ha).1,
          fun hregion => (hlater addition ha).2 hregion.of_cons⟩) _

end

end Branches

namespace Aggregate

variable {aggregate : Aggregate} {schema : Schema}

/-- The tables of the tree of an accepted aggregate are the entities of its schema. -/
theorem specs_joinTree (h : Schema.ofAggregate aggregate = .ok schema) :
    aggregate.joinTree.specs = schema.entities.map Mapping.spec :=
  aggregate.root.specs_joinTree (Schema.mappings_of_ofAggregate h).1

theorem joinTree_ofAdditions (h : Schema.ofAggregate aggregate = .ok schema) :
    (AggregateTree.ofAdditions schema.root.spec schema.additions).joinTree =
      aggregate.joinTree := by
  have hmappings := (Schema.mappings_of_ofAggregate h).1
  have htree := aggregate.root.joinTree_ofAdditions hmappings [] (by simp)
  rwa [List.append_nil] at htree

end Aggregate

end FlatAggregate
