import FlatAggregate.Proofs.Generator.ForeignKeys
import FlatAggregate.Proofs.Plan.Comparisons

/-!
# Foreign keys under one name

The foreign keys of a table copy different columns, for each of these is declared by another entity
above it. Their names are made from the back reference and from tables and keys, and nothing keeps
them apart: a line that has no id but a key `id` gives its notes two foreign keys `line_id`. So the
names of an entity differ exactly if those of the keys do and the back reference is none of them,
and only then does no join compare two ids with one stored column
(`Schema.exists_plan_nodup_storedNames_iff`).

`copied` lists the columns that the foreign keys of an entity copy, and `keyNames` the names of the
copied keys; both are read off the definition.
-/

namespace FlatAggregate

namespace Placed

def id? (placed : Placed) : Option ColumnRef :=
  placed.entity.idColumn.map fun id => ⟨placed.path, id⟩

def key? (placed : Placed) : Option ColumnRef :=
  placed.keyColumn.map fun key => ⟨placed.path, key⟩

/-- What identifies an entity is the nearest id and the keys of those on the way to it. -/
theorem ids_eq (lineage : List Placed) :
    ids lineage = (lineage.findSome? id?).toList ++
      (lineage.takeWhile (·.entity.idColumn.isNone)).reverse.filterMap key? := by
  induction lineage with
  | nil => rfl
  | cons placed above ih =>
      have hid : placed.spec.id = placed.id? := rfl
      have hkey : placed.spec.key = placed.key? := rfl
      rw [ids, List.foldr_cons, ← ids, TableSpec.effectiveId, hid, hkey, List.findSome?_cons]
      cases hown : placed.entity.idColumn with
      | some id =>
          have hsome : placed.id? = some ⟨placed.path, id⟩ := by rw [id?, hown, Option.map_some]
          rw [List.takeWhile_cons_of_neg (by simp [hown]), hsome]
          rfl
      | none =>
          have hnone : placed.id? = none := by rw [id?, hown, Option.map_none]
          rw [List.takeWhile_cons_of_pos (by simp [hown]), hnone, List.reverse_cons,
            List.filterMap_append, ← List.append_assoc, ← ih]
          cases hkey : placed.key? <;> simp [hkey]

theorem entity_mem_of_mem_ids {lineage : List Placed} {column : ColumnRef}
    (h : column ∈ ids lineage) : column.entity ∈ lineage.map path := by
  rw [ids_eq, List.mem_append] at h
  rcases h with h | h
  · obtain ⟨placed, hmem, hid⟩ := List.exists_of_findSome?_eq_some (Option.mem_toList.mp h)
    obtain ⟨_, -, rfl⟩ := Option.map_eq_some_iff.mp hid
    exact List.mem_map_of_mem hmem
  · obtain ⟨placed, hmem, hkey⟩ := List.mem_filterMap.mp h
    obtain ⟨_, -, rfl⟩ := Option.map_eq_some_iff.mp hkey
    exact List.mem_map_of_mem
      ((List.takeWhile_sublist _).subset (List.mem_reverse.mp hmem))

/-- Entities at different paths are identified by different columns. -/
theorem nodup_ids {lineage : List Placed} (h : (lineage.map path).Nodup) : (ids lineage).Nodup := by
  induction lineage with
  | nil => exact List.nodup_nil
  | cons placed above ih =>
      obtain ⟨hfirst, hn⟩ := List.nodup_cons.mp h
      rw [ids, List.foldr_cons, ← ids, TableSpec.effectiveId]
      cases placed.spec.id with
      | some id => exact List.nodup_singleton id
      | none =>
          change (ids above ++ placed.key?.toList).Nodup
          apply (ih hn).append
          · cases placed.key? <;> simp
          · intro column habove hown
            obtain ⟨_, -, rfl⟩ := Option.map_eq_some_iff.mp (Option.mem_toList.mp hown)
            exact hfirst (entity_mem_of_mem_ids habove)

end Placed

namespace Descendant

/-- The columns that the foreign keys copy: the id of the nearest entity above with one, and the
keys of the entities in between, outermost first. -/
def copied (descendant : Descendant) : List ColumnRef :=
  (descendant.lineage.findSome? Placed.id?).toList ++ descendant.between.filterMap Placed.key?

def keyNames (descendant : Descendant) : List String :=
  descendant.between.filterMap Placed.keyName?

end Descendant

namespace Schema

variable {aggregate : Aggregate} {schema : Schema} {placed : Placed} {above : List Placed}

theorem Lineage.length_lt (h : schema.Lineage placed above) :
    ∀ ancestor ∈ above, ancestor.path.text.length < placed.path.text.length := by
  induction h with
  | root => simp
  | child _ hparent _ ih =>
      have hlt := EntityPath.length_lt_of_parent hparent
      rw [List.forall_mem_cons]
      exact ⟨hlt, fun ancestor hancestor => Nat.lt_trans (ih ancestor hancestor) hlt⟩

theorem Lineage.nodup_paths (h : schema.Lineage placed above) :
    ((placed :: above).map Placed.path).Nodup := by
  induction above generalizing placed with
  | nil => exact List.nodup_singleton _
  | cons parent above ih =>
      rw [List.map_cons, List.nodup_cons]
      refine ⟨fun hmem => ?_, ih h.tail⟩
      obtain ⟨ancestor, hancestor, heq⟩ := List.mem_map.mp hmem
      exact Nat.lt_irrefl _ (heq ▸ h.length_lt ancestor hancestor)

/-- The scan of an entity stores its foreign keys under the names that its lineage gives them, and
they read the columns that these copy. -/
theorem Lineage.of_scanAt {descendant : Descendant} {draft : Draft EntityPath ColumnRef}
    {plan : Plan EntityPath ColumnRef}
    (h : schema.Lineage descendant.self descendant.lineage)
    (hschema : ofAggregate aggregate = .ok schema)
    (hdraft : Draft.assemble schema.root.spec schema.additions = .ok draft)
    (hplan : draft.plan = .ok plan) {select : SelectId} {scan : TableScan EntityPath}
    (hscan : plan.scanAt select = some scan) (hself : scan.table = descendant.self.path) :
    scan.foreignKeys.map plan.sourceColumn = descendant.copied.map some ∧
      scan.foreignKeys.mapM (Lowering.storedColumn schema.names plan) =
        .ok (descendant.foreignKeyNames.map some) := by
  obtain ⟨top, hlaid, -⟩ := Draft.laid_of_assemble hdraft hplan
  obtain ⟨addition, ha, hspec, hparent⟩ := h.exists_addition
  have hroot : Addition.inherit TableSpec.effectiveId [] schema.root.spec schema.additions
      schema.root.spec.table = schema.root.spec.effectiveId [] :=
    Addition.inherit_root (Draft.nodup_tables_of_assemble hdraft)
  have hadditions := Draft.inherit_of_assemble TableSpec.effectiveId [] hdraft
  obtain ⟨-, -, hread⟩ := Draft.map_sourceColumn_of_assemble hdraft hplan hroot hadditions hscan
  have htokens := hread addition ha ((congrArg TableSpec.table hspec).trans hself.symm)
  rw [hparent, h.tail.inherit_eq hroot hadditions] at htokens
  constructor
  · rw [htokens, Placed.ids_eq]
    rfl
  · obtain ⟨_, -, _, _, _, -, hhas, -⟩ := hlaid.exists_hasScan_of_scanAt hscan
    apply hhas.mapM_storedColumn htokens
    rw [hself]
    exact forall₂_foreignKeyName h hschema

theorem nodup_map_storedColumn_iff {names : NameSource EntityPath ColumnRef}
    {plan : Plan EntityPath ColumnRef} {columns : List ColumnId} {stored : List String}
    (h : columns.mapM (Lowering.storedColumn names plan) = .ok (stored.map some)) :
    (columns.map (Lowering.storedColumn names plan)).Nodup ↔ stored.Nodup := by
  have hnames : columns.map (Lowering.storedColumn names plan) =
      stored.map fun name => .ok (some name) := by
    have hpaired := forall₂_of_mapM_eq_ok h
    rw [List.forall₂_map_left_iff] at hpaired
    rw [← List.forall₂_eq_eq_eq, List.forall₂_map_left_iff, List.forall₂_map_right_iff]
    exact hpaired.flip
  rw [hnames]
  exact List.nodup_map_iff fun _ _ heq => Option.some.inj (Except.ok.inj heq)

/-- No join compares two ids with one stored column of an entity exactly if its foreign keys have
different names. -/
theorem Lineage.separates_iff {descendant : Descendant} {draft : Draft EntityPath ColumnRef}
    {plan : Plan EntityPath ColumnRef}
    (h : schema.Lineage descendant.self descendant.lineage)
    (hschema : ofAggregate aggregate = .ok schema)
    (hdraft : Draft.assemble schema.root.spec schema.additions = .ok draft)
    (hplan : draft.plan = .ok plan) {select : SelectId} {scan : TableScan EntityPath}
    (hscan : plan.scanAt select = some scan) (hself : scan.table = descendant.self.path) :
    plan.Separates scan (Lowering.storedColumn schema.names plan) ↔
      descendant.foreignKeyNames.Nodup := by
  obtain ⟨top, hlaid, -⟩ := Draft.laid_of_assemble hdraft hplan
  -- the left-most table of the whole plan is the root
  have hother : plan.leftmost top.select ≠ some scan := by
    intro hleftmost
    obtain ⟨_, _, scan', hleftmost', hhas, -⟩ := hlaid.leftmost
    obtain rfl := Option.some.inj (hleftmost.symm.trans hleftmost')
    have hfirst : scan.table = schema.root.spec.table := by
      rw [hhas.table, AggregateTree.rootSpec_joinTree]
      rfl
    obtain ⟨addition, ha, hspec, -⟩ := h.exists_addition
    have htable : addition.spec.table = scan.table :=
      (congrArg TableSpec.table hspec).trans hself.symm
    exact (Draft.addition_unique hdraft ha).1 (htable.trans hfirst)
  rw [hlaid.separates_iff hscan hother]
  exact nodup_map_storedColumn_iff (h.of_scanAt hschema hdraft hplan hscan hself).2

/-- The foreign keys of an entity of an accepted aggregate copy different columns, the nearest id
above it and the keys of the entities in between; those of the root none. They are stored under the
back reference and the names of the keys. So their names differ exactly if the names of the keys do
and the back reference is none of these; and this is so exactly if no join compares two ids with one
stored column of the entity. -/
theorem exists_plan_nodup_storedNames_iff (h : ofAggregate aggregate = .ok schema) :
    aggregate.descendants.map (·.self.path) = schema.below.map Mapping.path ∧
    ∃ plan, schema.plan = .ok plan ∧
      (∀ select scan, plan.scanAt select = some scan → scan.table = .root →
        scan.foreignKeys = []) ∧
      ∀ descendant ∈ aggregate.descendants,
        (∃ select scan, plan.scanAt select = some scan ∧ scan.table = descendant.self.path) ∧
        ∀ select scan, plan.scanAt select = some scan → scan.table = descendant.self.path →
          scan.foreignKeys.map plan.sourceColumn = descendant.copied.map some ∧
          descendant.copied.Nodup ∧
          scan.foreignKeys.mapM (Lowering.storedColumn schema.names plan) =
            .ok (descendant.foreignKeyNames.map some) ∧
          (descendant.foreignKeyNames.Nodup ↔
            descendant.backReference ∉ descendant.keyNames ∧ descendant.keyNames.Nodup) ∧
          (descendant.foreignKeyNames.Nodup ↔
            plan.Separates scan (Lowering.storedColumn schema.names plan)) := by
  obtain ⟨hpaths, hlineages⟩ := aggregate.lineage_descendants h
  obtain ⟨draft, plan, hdraft, hplan, hschema⟩ := exists_plan h
  have hroot : schema.root.spec.table = .root := (fill_of_ofAggregate h).1
  refine ⟨hpaths, plan, hschema, fun select scan hscan htable => ?_,
    fun descendant hdescendant => ?_⟩
  · obtain ⟨-, hnone, -⟩ := Draft.map_sourceColumn_of_assemble hdraft hplan
      (Addition.inherit_root (Draft.nodup_tables_of_assemble hdraft))
      (Draft.inherit_of_assemble TableSpec.effectiveId [] hdraft) hscan
    exact hnone (htable.trans hroot.symm)
  have hlineage := hlineages descendant hdescendant
  obtain ⟨addition, ha, hspec, -⟩ := hlineage.exists_addition
  have htable : addition.spec.table = descendant.self.path := congrArg TableSpec.table hspec
  constructor
  · rw [← htable]
    exact (Draft.existsUnique_scan_of_assemble hdraft hplan
      (List.mem_cons_of_mem _ (List.mem_map_of_mem ha))).exists
  intro select scan hscan hself
  obtain ⟨hread, hstored⟩ := hlineage.of_scanAt h hdraft hplan hscan hself
  refine ⟨hread, ?_, hstored, ?_, ?_⟩
  · have hcopied : descendant.copied = Placed.ids descendant.lineage := (Placed.ids_eq _).symm
    rw [hcopied]
    exact Placed.nodup_ids hlineage.tail.nodup_paths
  · exact List.nodup_cons
  · exact (hlineage.separates_iff h hdraft hplan hscan hself).symm

/-- The lines of an order have no id but a key `id`. So their notes store the id of the order and
the key of the line under the same name, and a join compares both with it. -/
theorem exists_plan_storedNames_clash :
    let line : Entity :=
      { table := "line", children := [{ property := "notes", entity := { table := "note" } }] }
    let aggregate : Aggregate := ⟨"order",
      { table := "orders", idColumn := some "id"
        children := [{ property := "lines", keyColumn := some "id", entity := line }] }⟩
    ∃ schema plan select scan, ofAggregate aggregate = .ok schema ∧ schema.plan = .ok plan ∧
      plan.scanAt select = some scan ∧ scan.table = ⟨"lines.notes"⟩ ∧
      scan.foreignKeys.map plan.sourceColumn = [some ⟨.root, "id"⟩, some ⟨⟨"lines"⟩, "id"⟩] ∧
      scan.foreignKeys.mapM (Lowering.storedColumn schema.names plan) =
        .ok [some "line_id", some "line_id"] ∧
      ¬ plan.Separates scan (Lowering.storedColumn schema.names plan) := by
  intro line aggregate
  let orders : Mapping := ⟨.root, "orders", some "id", [], none, none, .single⟩
  let schema : Schema := (start "order" orders).pushAll
    [⟨⟨"lines"⟩, "line", none, [], some "id", some "orders_id", .multiple⟩,
      ⟨⟨"lines.notes"⟩, "note", none, [], none, some "line_id", .multiple⟩]
  let order : Placed := ⟨.root, none, none, aggregate.root⟩
  let lines : Placed := ⟨⟨"lines"⟩, some "id", none, line⟩
  let notes : Descendant := ⟨⟨⟨"lines.notes"⟩, none, none, { table := "note" }⟩, lines, [order]⟩
  have h : ofAggregate aggregate = .ok schema := by decide
  have hmem : notes ∈ aggregate.descendants := List.mem_cons_of_mem _ List.mem_cons_self
  have hlineage := (aggregate.lineage_descendants h).2 notes hmem
  obtain ⟨draft, plan, hdraft, hplan, hschema⟩ := exists_plan h
  obtain ⟨addition, ha, hspec, -⟩ := hlineage.exists_addition
  obtain ⟨select, ⟨scan, hscan, htable⟩, -⟩ := Draft.existsUnique_scan_of_assemble hdraft hplan
    (List.mem_cons_of_mem _ (List.mem_map_of_mem ha))
  have hself : scan.table = notes.self.path := htable.trans (congrArg TableSpec.table hspec)
  obtain ⟨hread, hstored⟩ := hlineage.of_scanAt h hdraft hplan hscan hself
  refine ⟨schema, plan, select, scan, h, hschema, hscan, hself, hread, hstored, ?_⟩
  rw [hlineage.separates_iff h hdraft hplan hscan hself]
  decide

/-- An order whose lines have a position but no id, and whose notes name their back reference. -/
theorem exists_plan_nodup_storedNames_order :
    let note : Entity := { table := "note", columns := ["text"] }
    let line : Entity :=
      { table := "line"
        children := [{ property := "notes", backReference := some "order_ref", entity := note },
          { property := "marks", backReference := some "line_position", entity := note }] }
    let aggregate : Aggregate := ⟨"order",
      { table := "orders", idColumn := some "id"
        children := [{ property := "lines", keyColumn := some "position", entity := line }] }⟩
    ∃ schema plan, ofAggregate aggregate = .ok schema ∧ schema.plan = .ok plan ∧
      (∀ select scan, plan.scanAt select = some scan → scan.table = ⟨"lines.notes"⟩ →
        plan.Separates scan (Lowering.storedColumn schema.names plan)) ∧
      ∀ select scan, plan.scanAt select = some scan → scan.table = ⟨"lines.marks"⟩ →
        ¬ plan.Separates scan (Lowering.storedColumn schema.names plan) := by
  intro note line aggregate
  let orders : Mapping := ⟨.root, "orders", some "id", [], none, none, .single⟩
  let schema : Schema := (start "order" orders).pushAll
    [⟨⟨"lines"⟩, "line", none, [], some "position", some "orders_id", .multiple⟩,
      ⟨⟨"lines.notes"⟩, "note", none, ["text"], none, some "order_ref", .multiple⟩,
      ⟨⟨"lines.marks"⟩, "note", none, ["text"], none, some "line_position", .multiple⟩]
  let order : Placed := ⟨.root, none, none, aggregate.root⟩
  let lines : Placed := ⟨⟨"lines"⟩, some "position", none, line⟩
  let notes : Descendant := ⟨⟨⟨"lines.notes"⟩, none, some "order_ref", note⟩, lines, [order]⟩
  let marks : Descendant := ⟨⟨⟨"lines.marks"⟩, none, some "line_position", note⟩, lines, [order]⟩
  have h : ofAggregate aggregate = .ok schema := by decide
  have hnotes : notes ∈ aggregate.descendants := List.mem_cons_of_mem _ List.mem_cons_self
  have hmarks : marks ∈ aggregate.descendants :=
    List.mem_cons_of_mem _ (List.mem_cons_of_mem _ List.mem_cons_self)
  obtain ⟨-, plan, hplan, -, hall⟩ := exists_plan_nodup_storedNames_iff h
  refine ⟨schema, plan, h, hplan, fun select scan hscan hself => ?_,
    fun select scan hscan hself => ?_⟩
  · obtain ⟨-, -, -, hnames, hseparates⟩ := (hall notes hnotes).2 select scan hscan hself
    exact hseparates.mp (hnames.mpr (by decide))
  · obtain ⟨-, -, -, hnames, hseparates⟩ := (hall marks hmarks).2 select scan hscan hself
    exact fun h => (by decide : ¬ (marks.backReference ∉ marks.keyNames ∧ marks.keyNames.Nodup))
      (hnames.mp (hseparates.mpr h))

end Schema

end FlatAggregate
