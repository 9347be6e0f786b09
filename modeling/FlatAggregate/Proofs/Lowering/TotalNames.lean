import FlatAggregate.Proofs.Lowering.References

/-!
# Naming all tables

A name source can be completed so that it knows every table (`NameSource.total`). Where it has a
name, the completed source has the same, so a part of a plan whose tables are known is lowered as if
all tables were (`statement_total`). What is known of queries without unknown tables then tells that
such a part is lowered without errors, whatever else the plan contains (`succeeds_parentSource`).
-/

namespace FlatAggregate

variable {T C α : Type}

namespace NameSource

variable {names : NameSource T C} {plan : Plan T C}

/-- The name source, with an empty name for all that it has no name for. -/
def total (names : NameSource T C) : NameSource T C where
  tableName table := .ok ((names.tableName table).toOption.getD "")
  columnName := names.columnName
  foreignKeyName owner referenced :=
    .ok ((names.foreignKeyName owner referenced).toOption.getD "")

theorem knows_total (names : NameSource T C) (specs : List (TableSpec T C)) :
    names.total.Knows specs :=
  ⟨fun _ _ => ⟨_, rfl⟩, fun _ _ _ _ => ⟨_, rfl⟩⟩

theorem tableName_total {table : T} {name : String} (h : names.tableName table = .ok name) :
    names.total.tableName table = .ok name := by
  simp only [total, h]
  rfl

theorem storedName_total {column : ColumnId} {owner : SelectId} {name : String}
    (h : names.storedName plan column owner = .ok name) :
    names.total.storedName plan column owner = .ok name := by
  rw [storedName] at h ⊢
  split at h
  · simp only [total, h]
    rfl
  · cases h

end NameSource

namespace Aliasing

variable [DecidableEq T] [DecidableEq C] {names : NameSource T C} {plan : Plan T C}

/-- From any sound book on, a computation has a result and leaves a sound book. -/
def Succeeds (plan : Plan T C) (m : Aliasing T C α) : Prop :=
  ∀ book, book.Sound plan → ∃ x later, m.on book = (.ok x, later) ∧ later.Sound plan

theorem Settles.succeeds {m : Aliasing T C α} (h : Settles plan m)
    (hselects : ∀ select, select < plan.selects.size →
      Finds plan (.select select) (Aliasing.select names plan select))
    (hok : ∀ book : AliasBook T C, book.Settled names plan → ∃ x, m.on book = (.ok x, book)) :
    Succeeds plan m := by
  intro book hbook
  obtain ⟨hsound, -, hagain⟩ := h book hbook
  -- run again with a settled book after it, the computation has the same result
  obtain ⟨later, hsettled, hextends⟩ := hsound.exists_settled hselects
  obtain ⟨x, hx⟩ := hok later hsettled
  rw [hagain later hextends] at hx
  exact ⟨x, _, Prod.ext (Prod.mk.inj hx).1 rfl, hsound⟩

theorem table_total {table : T} {name : String} (h : names.tableName table = .ok name) :
    Aliasing.table names.total table = Aliasing.table names table := by
  rw [Aliasing.table, Aliasing.table, NameSource.tableName_total h, h]

theorem select_total {select : SelectId}
    (h : ∀ scan, plan.scanAt select = some scan → ∃ name, names.tableName scan.table = .ok name) :
    Aliasing.select names.total plan select = Aliasing.select names plan select := by
  rw [Aliasing.select, Aliasing.select]
  split
  · rename_i scan hselect
    obtain ⟨name, hname⟩ := h scan (by rw [Plan.scanAt, hselect])
    rw [table_total hname]
  · rfl
  · rfl
  · rfl

theorem column_total {column : ColumnId} (h : plan.Named names column) :
    Aliasing.column names.total plan column = Aliasing.column names plan column := by
  induction h with
  | base h =>
      rw [Aliasing.column, Aliasing.column, h]
      rfl
  | derived h hlt _ ih =>
      rw [Aliasing.column, Aliasing.column, h]
      simp only [earlier, dif_pos hlt, ih]
  | foreignKey h hname =>
      rw [Aliasing.column, Aliasing.column, h]
      simp only [hname, NameSource.storedName_total hname]
  | rowNumber h => rw [Aliasing.column, Aliasing.column, h]
  | @greatest column left right role h =>
      rw [Aliasing.column, Aliasing.column, h]
      cases role <;> rfl
  | maxOver h => rw [Aliasing.column, Aliasing.column, h]

end Aliasing

namespace Lowering

open Aliasing

variable {names : NameSource T C} {plan : Plan T C}

theorem storedColumn_total {column : ColumnId} {stored : Option String}
    (h : storedColumn names plan column = .ok stored) :
    storedColumn names.total plan column = storedColumn names plan column := by
  rw [storedColumn] at h
  rw [storedColumn, storedColumn]
  split
  · rfl
  · rename_i references owner hcolumn
    simp only [hcolumn] at h
    cases hname : names.storedName plan column owner with
    | error error => simp [hname] at h
    | ok name => rw [NameSource.storedName_total hname]
  · rfl

theorem tableScope_total (aliasName : String) {columns : List ColumnId}
    (h : ∀ column ∈ columns, ∃ stored, storedColumn names plan column = .ok stored) :
    tableScope names.total plan aliasName columns = tableScope names plan aliasName columns := by
  have hstored : (columns.mapM fun column => do
        return (column, ← storedColumn names.total plan column)) =
      columns.mapM fun column => do return (column, ← storedColumn names plan column) :=
    mapM_congr_left fun column hc => by
      obtain ⟨stored, hstored⟩ := h column hc
      rw [storedColumn_total hstored]
  rw [tableScope, tableScope, hstored]

variable [DecidableEq T] [DecidableEq C]

theorem selectItems_total {columns : List ColumnId} (hnamed : ∀ c ∈ columns, plan.Named names c)
    (scope : Scope) :
    selectItems names.total plan scope columns = selectItems names plan scope columns :=
  mapM_congr_left fun c hc => by rw [column_total (hnamed c hc)]

theorem subquerySource_total {select : SelectId}
    (hselect : Aliasing.select names.total plan select = Aliasing.select names plan select)
    (hnamed : ∀ c ∈ plan.columnsOf select, plan.Named names c) (query : Statement) :
    subquerySource names.total plan select query = subquerySource names plan select query := by
  have hscope : ∀ aliasName : String, ((plan.columnsOf select).mapM fun column => do
        let name ← Aliasing.column names.total plan column
        return (plan.canonical column, (⟨.property aliasName name, true⟩ : Exposure))) =
      (plan.columnsOf select).mapM fun column => do
        let name ← Aliasing.column names plan column
        return (plan.canonical column, (⟨.property aliasName name, true⟩ : Exposure)) :=
    fun _ => mapM_congr_left fun c hc => by rw [column_total (hnamed c hc)]
  simp only [subquerySource, hselect, hscope]

theorem tableLevel_total {columns : List ColumnId} (hnamed : ∀ c ∈ columns, plan.Named names c) :
    tableLevel names.total plan columns = tableLevel names plan columns :=
  funext fun source => by rw [tableLevel, tableLevel, selectItems_total hnamed]

theorem joinLevel_total {join : PlanJoin} (hnamed : ∀ c ∈ join.columns, plan.Named names c) :
    joinLevel names.total plan join = joinLevel names plan join :=
  funext₂ fun parent child => by simp only [joinLevel, selectItems_total hnamed]

section Known

variable {specs : List (TableSpec T C)} {incoming : List ColumnId} {first last : Mark}
  (hknows : names.Knows specs)

include hknows

theorem tableSource_total {spec : TableSpec T C} {next : Nat} {scan : TableScan T}
    (hspec : spec ∈ specs) (hincoming : plan.Incoming specs first incoming)
    (h : plan.HasScan spec incoming first next scan) :
    tableSource names.total plan first.select scan = tableSource names plan first.select scan := by
  obtain ⟨name, hname⟩ := hknows.tableName spec hspec
  rw [← h.table] at hname
  have hselect : Aliasing.select names.total plan first.select =
      Aliasing.select names plan first.select := select_total fun scan' hscan => by
    obtain rfl := Option.some.inj (h.scanAt.symm.trans hscan)
    exact ⟨name, hname⟩
  have hscope : ∀ aliasName, tableScope names.total plan aliasName scan.allColumns =
      tableScope names plan aliasName scan.allColumns := fun aliasName =>
    tableScope_total aliasName fun c hc => by
      obtain ⟨stored, hstored⟩ := h.storedColumn hknows hspec hincoming hc
      exact ⟨some stored, hstored⟩
  simp only [tableSource, hselect, hscope, NameSource.tableName_total hname, hname]

/-- The select of a known part of a plan has the alias that it has if all tables are known. -/
theorem select_operand_total {side : Side} {tree : JoinTree T C} {operand : Operand}
    (h : plan.Laid side tree incoming first last operand) (hspecs : tree.specs ⊆ specs) :
    Aliasing.select names.total plan operand.select =
      Aliasing.select names plan operand.select := by
  refine select_total fun scan hscan => ?_
  obtain ⟨spec, hspec, _, _, _, -, hlaid, -⟩ := h.exists_hasScan h.room.1 h.room.2.1 hscan
  rw [hlaid.table]
  exact hknows.tableName spec (hspecs hspec)

theorem subquerySource_operand_total {side : Side} {tree : JoinTree T C} {operand : Operand}
    (h : plan.Laid side tree incoming first last operand) (hspecs : tree.specs ⊆ specs)
    (hincoming : plan.Incoming specs first incoming) (query : Statement) :
    subquerySource names.total plan operand.select query =
      subquerySource names plan operand.select query :=
  subquerySource_total (select_operand_total hknows h hspecs)
    (h.offers.1 ▸ h.named hknows hspecs hincoming) query

theorem queriedSource_total {side : Side} {tree : JoinTree T C} {operand : Operand}
    (h : plan.Laid side tree incoming first last operand) (hspecs : tree.specs ⊆ specs)
    (hincoming : plan.Incoming specs first incoming)
    (hstatement : statement names.total plan operand.select =
      statement names plan operand.select) :
    queriedSource names.total plan operand.select = queriedSource names plan operand.select := by
  rw [queriedSource, queriedSource, hstatement]
  exact congrArg _ (funext (subquerySource_operand_total hknows h hspecs hincoming))

theorem parentSource_total {tree : JoinTree T C} {operand : Operand}
    (h : plan.Laid .parent tree incoming first last operand) (hspecs : tree.specs ⊆ specs)
    (hincoming : plan.Incoming specs first incoming)
    (hstatement : statement names.total plan operand.select =
      statement names plan operand.select) :
    parentSource names.total plan operand.select = parentSource names plan operand.select := by
  have hqueried := queriedSource_total hknows h hspecs hincoming hstatement
  cases h with
  | scan hscan =>
      rw [TableScan.operand, parentSource_table names.total hscan, parentSource_table names hscan,
        tableSource_total hknows (hspecs JoinTree.mem_specs_table) hincoming hscan]
  | join _ _ _ hjoin =>
      rw [PlanJoin.operand, parentSource_join names.total hjoin, parentSource_join names hjoin]
      exact hqueried

/-- A known part of a plan is lowered as if all tables were known. -/
theorem statement_total {side : Side} {tree : JoinTree T C} {operand : Operand}
    (h : plan.Laid side tree incoming first last operand) (hspecs : tree.specs ⊆ specs)
    (hincoming : plan.Incoming specs first incoming) :
    statement names.total plan operand.select = statement names plan operand.select := by
  have hnamed := h.named hknows hspecs hincoming
  induction h with
  | scan hscan =>
      rw [TableScan.operand, statement_scan names.total hscan, statement_scan names hscan,
        tableSource_total hknows (hspecs JoinTree.mem_specs_table) hincoming hscan]
      exact congrArg _ (tableLevel_total hnamed)
  | view hscan hview _ =>
      rw [TableScan.viewOperand, statement_view names.total hscan hview,
        statement_view names hscan hview,
        tableSource_total hknows (hspecs JoinTree.mem_specs_table) hincoming hscan]
      exact congrArg _ (tableLevel_total hnamed)
  | @join side left right incoming shown first middle last next parent child multiplicity owner join
      hparent _ hchild hjoin ihp ihc =>
      have hsides := List.append_subset.mp hspecs
      have hincoming' := hparent.incoming_id hsides.1 hincoming
      have hstatement := ihp hsides.1 hincoming (hparent.named hknows hsides.1 hincoming)
      have hstatement' := ihc hsides.2 hincoming' (hchild.named hknows hsides.2 hincoming')
      rw [PlanJoin.operand, statement_join names.total hparent hchild hjoin,
        statement_join names hparent hchild hjoin,
        parentSource_total hknows hparent hsides.1 hincoming hstatement,
        queriedSource_total hknows hchild hsides.2 hincoming' hstatement', joinLevel_total hnamed]

variable {whole : JoinTree T C} {top : Operand}
  (hplan : plan.Laid .parent whole [] ⟨0, 0⟩ plan.parts.mark top)

include hplan

omit hknows in
theorem finds_select_total (names : NameSource T C) (select : SelectId)
    (hlt : select < plan.selects.size) :
    Finds plan (.select select) (Aliasing.select names.total plan select) :=
  finds_select (names.knows_total whole.specs) hplan (List.Subset.refl _) hlt

theorem succeeds_parentSource {tree : JoinTree T C} {operand : Operand}
    (h : plan.Laid .parent tree incoming first last operand) (hspecs : tree.specs ⊆ specs)
    (hincoming : plan.Incoming specs first incoming) :
    Succeeds plan (parentSource names plan operand.select) := by
  have hselects := finds_select_total hplan names
  have hknowsAll := names.knows_total specs
  have hsettles := settles_statement hselects hknowsAll h hspecs hincoming
  rw [← parentSource_total hknows h hspecs hincoming
    (statement_total hknows h hspecs hincoming)]
  refine (settles_parentSource hselects hknowsAll h hspecs hincoming hsettles).succeeds hselects
    fun book hbook => ?_
  obtain ⟨source, scope, hsource, -⟩ := listed_parent hbook hknowsAll h hspecs hincoming
    (exists_stated hbook hknowsAll h hspecs hincoming)
  exact ⟨_, hsource⟩

end Known

end Lowering

end FlatAggregate
