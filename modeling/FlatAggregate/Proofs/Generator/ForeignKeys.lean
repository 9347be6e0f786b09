import FlatAggregate.Proofs.Aggregate.Lineages
import FlatAggregate.Proofs.Lowering.References
import FlatAggregate.Proofs.Plan.Identity

/-!
# The names of foreign keys

The foreign keys of a table read what identifies the entities above it: the id of the nearest one
that has an id, then the keys of those in between. So an entity stores the first of them under its
back reference, and the others under the table and the key that they copy.

What identifies an entity is listed by `Placed.ids` along its lineage; the tables inherit just this
(`Schema.Lineage.inherit_eq`).
-/

namespace FlatAggregate

section Stored

variable {T C : Type} {names : NameSource T C} {plan : Plan T C}
  {spec : TableSpec T C} {incoming : List ColumnId} {mark : Mark} {next : Nat} {scan : TableScan T}

/-- The foreign keys of a scan are stored under the names of the columns that they read. -/
theorem Plan.HasScan.mapM_storedColumn (h : plan.HasScan spec incoming mark next scan)
    {tokens : List C} {stored : List String}
    (htokens : scan.foreignKeys.map plan.sourceColumn = tokens.map some)
    (hnames : List.Forall₂ (fun token name => names.foreignKeyName scan.table token = .ok name)
      tokens stored) :
    scan.foreignKeys.mapM (Lowering.storedColumn names plan) = .ok (stored.map some) := by
  have htable : plan.tableOf mark.select = some scan.table := by rw [Plan.tableOf, h.select]
  have hstored : ∀ {column : ColumnId} {token : C} {name : String}, column ∈ scan.foreignKeys →
      plan.sourceColumn column = some token → names.foreignKeyName scan.table token = .ok name →
      Lowering.storedColumn names plan column = .ok (some name) := fun hmem htoken hname => by
    obtain ⟨references, -, heq⟩ := h.foreignKeys.exists_source hmem
    rw [Lowering.storedColumn, heq]
    simp only [NameSource.storedName, htoken, htable, hname]
    rfl
  have hpaired : List.Forall₂ (fun source name => ∃ token, source = some token ∧
      names.foreignKeyName scan.table token = .ok name) (scan.foreignKeys.map plan.sourceColumn)
      stored := by
    rw [htokens, List.forall₂_map_left_iff]
    exact hnames.imp fun token name hname => ⟨token, rfl, hname⟩
  rw [List.forall₂_map_left_iff] at hpaired
  have hmem := (List.forall₂_and_left _ _).mpr
    ⟨fun column (hc : column ∈ scan.foreignKeys) => hc, hpaired⟩
  apply mapM_eq_ok_of_forall₂
  rw [List.forall₂_map_right_iff]
  apply hmem.imp
  rintro column name ⟨hc, token, htoken, hname⟩
  exact hstored hc htoken hname

end Stored

/-- The columns that identify the first of the entities, each of which stands below the next. -/
def Placed.ids (lineage : List Placed) : List ColumnRef :=
  lineage.foldr (fun placed above => placed.spec.effectiveId above) []

/-- Where copies of ids have one name, and copies of keys are named by table and key, these are the
names of what identifies an entity whose lineage has an id. -/
theorem Placed.forall₂_ids {name : ColumnRef → Except NamingError String} {backReference : String}
    {lineage : List Placed}
    (hids : ∀ placed ∈ lineage, ∀ id, placed.entity.idColumn = some id →
      name ⟨placed.path, id⟩ = .ok backReference)
    (hkeys : ∀ placed ∈ lineage, placed.entity.idColumn = none → ∀ key,
      name ⟨placed.path, key⟩ = .ok (placed.entity.table ++ "_" ++ key))
    (h : ∃ placed ∈ lineage, placed.entity.idColumn.isSome) :
    List.Forall₂ (fun column given => name column = .ok given) (Placed.ids lineage)
      (backReference :: (lineage.takeWhile (·.entity.idColumn.isNone)).reverse.filterMap
        Placed.keyName?) := by
  induction lineage with
  | nil => simp at h
  | cons placed above ih =>
      rw [List.forall_mem_cons] at hids hkeys
      have hspec : placed.spec.id = placed.entity.idColumn.map (⟨placed.path, ·⟩) := rfl
      have hkey : placed.spec.key = placed.keyColumn.map (⟨placed.path, ·⟩) := rfl
      rw [Placed.ids, List.foldr_cons, ← Placed.ids, TableSpec.effectiveId, hspec]
      cases hid : placed.entity.idColumn with
      | some id =>
          rw [List.takeWhile_cons_of_neg (by simp [hid])]
          exact .cons (hids.1 id hid) .nil
      | none =>
          have habove : ∃ placed ∈ above, placed.entity.idColumn.isSome := by
            simpa [hid] using h
          have hlast : List.Forall₂ (fun column given => name column = .ok given)
              placed.spec.key.toList ([placed].filterMap Placed.keyName?) := by
            rw [hkey, List.filterMap_cons, Placed.keyName?]
            cases placed.keyColumn with
            | none => exact .nil
            | some key => exact .cons (hkeys.1 hid key) .nil
          rw [List.takeWhile_cons_of_pos (by simp [hid]), List.reverse_cons, List.filterMap_append,
            ← List.cons_append]
          exact List.rel_append (ih hids.2 hkeys.2 habove) hlast

namespace Schema

variable {aggregate : Aggregate} {schema : Schema} {placed parent : Placed} {above : List Placed}

theorem Lineage.tail (h : schema.Lineage placed (parent :: above)) :
    schema.Lineage parent above := by
  cases h with
  | child _ _ habove => exact habove

theorem Lineage.exists_addition (h : schema.Lineage placed (parent :: above)) :
    ∃ addition ∈ schema.additions, addition.spec = placed.spec ∧ addition.parent = parent.path := by
  cases h with
  | child hmem hparent _ =>
      refine ⟨_, List.mem_map_of_mem hmem, rfl, ?_⟩
      simp [Mapping.addition, Placed.mapping, hparent]

theorem Lineage.inherit_eq (h : schema.Lineage placed above) {eid : EntityPath → List ColumnRef}
    (hroot : eid schema.root.spec.table = schema.root.spec.effectiveId [])
    (hadditions : ∀ addition ∈ schema.additions,
      eid addition.spec.table = addition.spec.effectiveId (eid addition.parent)) :
    eid placed.path = Placed.ids (placed :: above) := by
  induction h with
  | root hmapping _ =>
      rw [hmapping] at hroot
      exact hroot
  | child hmem hparent habove ih =>
      obtain ⟨addition, ha, hspec, hbelow⟩ := (Lineage.child hmem hparent habove).exists_addition
      have haddition := hadditions addition ha
      rw [hspec, hbelow, ih] at haddition
      exact haddition

/-- The foreign keys of an entity have the names that its lineage gives them. -/
theorem forall₂_foreignKeyName {descendant : Descendant}
    (h : schema.Lineage descendant.self descendant.lineage)
    (hschema : ofAggregate aggregate = .ok schema) :
    List.Forall₂ (fun column name => schema.foreignKeyName descendant.self.path column = .ok name)
      (Placed.ids descendant.lineage) descendant.foreignKeyNames :=
  Placed.forall₂_ids (fun _ hancestor _ hid => h.foreignKeyName_id hschema hancestor hid)
    (fun _ hancestor hid key => h.foreignKeyName_key hschema hancestor hid key)
    (h.exists_id hschema (List.cons_ne_nil _ _))

/-- Foreign keys are named by one rule. Every entity of an accepted aggregate below the root stands
below one with an id. The plan has one scan of its table, and the scan stores its foreign keys under
the back reference, the one that is named or else the table of the parent with `_id`, and then, for
all entities with a key between it and the nearest one above it with an id, outermost first, under
their tables and keys. -/
theorem exists_plan_foreignKeyNames (h : ofAggregate aggregate = .ok schema) :
    aggregate.descendants.map (·.self.path) = schema.below.map Mapping.path ∧
    ∃ plan, schema.plan = .ok plan ∧ ∀ descendant ∈ aggregate.descendants,
      (∃ ancestor ∈ descendant.lineage, ancestor.entity.idColumn.isSome) ∧
      (∃! select, ∃ scan, plan.scanAt select = some scan ∧
        scan.table = descendant.self.path) ∧
      ∀ select scan, plan.scanAt select = some scan → scan.table = descendant.self.path →
        scan.foreignKeys.mapM (Lowering.storedColumn schema.names plan) =
          .ok (descendant.foreignKeyNames.map some) := by
  obtain ⟨hpaths, hlineages⟩ := aggregate.lineage_descendants h
  obtain ⟨draft, plan, hdraft, hplan, hschema⟩ := exists_plan h
  obtain ⟨top, hlaid, -, -, -⟩ := Draft.laid_of_assemble hdraft hplan
  have hroot : Addition.inherit TableSpec.effectiveId [] schema.root.spec schema.additions
      schema.root.spec.table = schema.root.spec.effectiveId [] :=
    Addition.inherit_root (Draft.nodup_tables_of_assemble hdraft)
  have hadditions := Draft.inherit_of_assemble TableSpec.effectiveId [] hdraft
  refine ⟨hpaths, plan, hschema, fun descendant hdescendant => ?_⟩
  have hlineage := hlineages descendant hdescendant
  obtain ⟨addition, ha, hspec, hparent⟩ := hlineage.exists_addition
  have htable : addition.spec.table = descendant.self.path := congrArg TableSpec.table hspec
  refine ⟨hlineage.exists_id h (List.cons_ne_nil _ _), ?_, ?_⟩
  · rw [← htable]
    exact Draft.existsUnique_scan_of_assemble hdraft hplan
      (List.mem_cons_of_mem _ (List.mem_map_of_mem ha))
  · intro select scan hscan hself
    -- the foreign keys read what identifies the parent
    obtain ⟨_, -, hread⟩ := Draft.map_sourceColumn_of_assemble hdraft hplan hroot hadditions hscan
    have htokens := hread addition ha (htable.trans hself.symm)
    rw [hparent, hlineage.tail.inherit_eq hroot hadditions] at htokens
    obtain ⟨spec, -, incoming, mark, next, -, hhas, -⟩ := hlaid.exists_hasScan_of_scanAt hscan
    apply hhas.mapM_storedColumn htokens
    rw [hself]
    exact forall₂_foreignKeyName hlineage h

/-- An order with lines that have a position but no id, and below them notes with a named back
reference and marks of these. -/
theorem exists_plan_foreignKeyNames_order :
    let note : Entity :=
      { table := "note", idColumn := some "id"
        children := [{ property := "marks", entity := { table := "mark", columns := ["value"] } }] }
    let line : Entity :=
      { table := "line", columns := ["amount"]
        children := [{ property := "notes", backReference := some "order_ref", entity := note },
          { property := "taxes", entity := { table := "tax", columns := ["rate"] } }] }
    let aggregate : Aggregate := ⟨"order",
      { table := "orders", idColumn := some "id"
        children := [{ property := "lines", keyColumn := some "position", entity := line }] }⟩
    aggregate.descendants.map Descendant.foreignKeyNames =
      [["orders_id"], ["order_ref", "line_position"], ["note_id"], ["line_id", "line_position"]] ∧
    ∃ schema plan, ofAggregate aggregate = .ok schema ∧ schema.plan = .ok plan ∧
      ∀ descendant ∈ aggregate.descendants,
        (∃! select, ∃ scan, plan.scanAt select = some scan ∧
          scan.table = descendant.self.path) ∧
        ∀ select scan, plan.scanAt select = some scan → scan.table = descendant.self.path →
          scan.foreignKeys.mapM (Lowering.storedColumn schema.names plan) =
            .ok (descendant.foreignKeyNames.map some) := by
  intro note line aggregate
  let orders : Mapping := ⟨.root, "orders", some "id", [], none, none, .single⟩
  let schema : Schema := (start "order" orders).pushAll
    [⟨⟨"lines"⟩, "line", none, ["amount"], some "position", some "orders_id", .multiple⟩,
      ⟨⟨"lines.notes"⟩, "note", some "id", [], none, some "order_ref", .multiple⟩,
      ⟨⟨"lines.notes.marks"⟩, "mark", none, ["value"], none, some "note_id", .multiple⟩,
      ⟨⟨"lines.taxes"⟩, "tax", none, ["rate"], none, some "line_id", .multiple⟩]
  have h : ofAggregate aggregate = .ok schema := by decide
  obtain ⟨-, plan, hplan, hnames⟩ := exists_plan_foreignKeyNames h
  exact ⟨by decide, schema, plan, h, hplan, fun descendant hmem => (hnames descendant hmem).2⟩

end Schema

end FlatAggregate
