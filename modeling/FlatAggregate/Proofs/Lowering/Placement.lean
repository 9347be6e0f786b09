import FlatAggregate.Proofs.Lowering.Exports
import FlatAggregate.Proofs.Lowering.Registration
import FlatAggregate.Proofs.Plan.Identity
import FlatAggregate.Proofs.Statement.Sources

/-!
# Where the tables of a plan are read

The sources of a written statement stand for the selects of its plan, one each and in order
(`Plan.Laid.covers`), for the plan has the selects of both sides of a join before that of the join.
So each table is read once, by a source whose alias has the number under which the table was entered
in the book, and a statement has one join less than it reads tables
(`Draft.exists_query_scansOnce`).
-/

namespace FlatAggregate

variable {T C : Type}

/-- A statement that reads each of the given tables once. -/
structure Statement.ScansOnce (settings : Settings) (tables : List String) (statement : Statement) :
    Prop where
  /-- The tables among all sources are the given ones, each under the alias with its number. -/
  perm_tables : ((statement.levels.flatMap Statement.sources).filterMap Source.table?).Perm
    (tables.mapIdx fun position name => (name, settings.aliasText .table (position + 1) name))
  /-- The aliases of all sources, tables and inline queries, differ. -/
  nodup_aliases : ((statement.levels.flatMap Statement.sources).map Source.aliasName).Nodup
  length_joins : (statement.levels.flatMap Statement.joins).length + 1 = tables.length
  fullOuter : ∀ join ∈ statement.levels.flatMap Statement.joins,
    join.kind = .fullOuter ∧ 2 ≤ join.conditions.length
  /-- A statement over several tables is ordered by two of its columns. -/
  length_orderBy : statement.orderBy.length = if 1 < tables.length then 2 else 0
  orderBy : ∀ item ∈ statement.orderBy, ∃ name ∈ statement.outputNames,
    item = ⟨.aliasRef name, .ascending⟩
  orderBy_below : ∀ level ∈ statement.levels.tail, level.orderBy = []

theorem JoinTree.length_tables_pos (tree : JoinTree T C) : 0 < tree.tables.length := by
  rw [tables, List.length_map]
  exact List.length_pos_of_mem tree.rootSpec_mem_specs

namespace Plan.Laid

variable {plan : Plan T C} {side : Side} {tree : JoinTree T C} {incoming : List ColumnId}
  {first last : Mark} {operand : Operand}

theorem length_id_le (h : plan.Laid side tree incoming first last operand)
    (hincoming : incoming = []) : operand.id.length ≤ 1 := by
  have hscan : ∀ {spec : TableSpec T C} {mark : Mark} {next : Nat} {scan : TableScan T},
      plan.HasScan spec incoming mark next scan → scan.idColumns.length ≤ 1 := by
    intro spec mark next scan h
    have hnone : scan.foreignKeys = [] := by
      rw [← List.length_eq_zero_iff, List.Forall₂.length_eq h.foreignKeys, hincoming]
      rfl
    cases hid : scan.id <;> cases hkey : scan.key <;> simp [TableScan.idColumns, hid, hkey, hnone]
  induction h with
  | scan h => exact hscan h
  | view h _ _ => exact hscan h
  | join hparent _ _ hjoin ihp _ =>
      have hlength := (List.Forall₂.length_eq hjoin.id).trans (List.length_map _)
      exact hlength.trans_le (ihp hincoming hscan)

theorem length_orderedBy (h : plan.Laid .parent tree [] first last operand)
    (hroot : plan.root = operand.select) :
    plan.orderedBy.length = if 1 < tree.tables.length then 2 else 0 := by
  rw [orderedBy, hroot]
  cases h with
  | scan hscan => simp [TableScan.operand, hscan.select]
  | @join _ left right _ _ _ _ _ _ parent child multiplicity owner join hparent hid hchild hjoin =>
      have hidentity : join.identity.length = 1 := by
        have hlength := List.Forall₂.length_eq hjoin.identity
        rw [List.length_map, List.length_zip, hchild.length_foreignKeys, Nat.min_self] at hlength
        exact hlength.trans
          (Nat.le_antisymm (hparent.length_id_le rfl) (List.length_pos_of_ne_nil hid))
      have hseveral : 1 < left.tables.length + right.tables.length := by
        have hleft := left.length_tables_pos
        have hright := right.length_tables_pos
        omega
      simp [PlanJoin.operand, hjoin.select, hidentity, hseveral]

theorem orderedBy_subset (h : plan.Laid .parent tree incoming first last operand)
    (hroot : plan.root = operand.select) : plan.orderedBy ⊆ plan.columnsOf operand.select := by
  rw [orderedBy, hroot, columnsOf]
  cases h with
  | scan hscan => simp [TableScan.operand, hscan.select]
  | join _ _ _ hjoin =>
      simp only [PlanJoin.operand, hjoin.select, hjoin.columns]
      exact List.subset_append_of_subset_right _ (List.subset_append_left _ _)

end Plan.Laid

section Sources

variable [DecidableEq T] [DecidableEq C] {names : NameSource T C} {plan : Plan T C}
  {book : AliasBook T C} {side : Side} {source : Source} {select : SelectId} {scope : Scope}

/-- A source stands for a select: it bears the alias of the select, and it is a bare table, with the
name of that table, just if the select is a scan. -/
structure Source.StandsFor (names : NameSource T C) (plan : Plan T C) (book : AliasBook T C)
    (source : Source) (select : SelectId) : Prop where
  find?_alias : book.find? (.select select) = some source.aliasName
  table : Option.Rel (fun shown scan => names.tableName scan.table = .ok shown.1) source.table?
    (plan.scanAt select)

/-- What a source contains stands for the given selects, and its levels have one join less than
there are tables. -/
def Source.Covers (names : NameSource T C) (plan : Plan T C) (book : AliasBook T C)
    (selects : List SelectId) (tables : List T) (source : Source) : Prop :=
  List.Forall₂ (Source.StandsFor names plan book) source.within selects ∧
    (source.levels.flatMap Statement.joins).length + 1 = tables.length

namespace Source.Written

theorem covers_scan (h : source.Written names plan book .parent select scope) {scan : TableScan T}
    (hscan : plan.scanAt select = some scan) :
    source.Covers names plan book [select] [scan.table] := by
  obtain ⟨name, hsource, hname⟩ := h.exists_table rfl hscan
  have hfind := h.find?_aliasName
  rw [hsource] at hfind ⊢
  have hstands : (Source.table name source.aliasName).StandsFor names plan book select :=
    ⟨hfind, by rw [hscan]; exact .some hname⟩
  exact ⟨.cons hstands .nil, rfl⟩

theorem exists_subquery (h : source.Written names plan book side select scope)
    (hnone : plan.scanAt select = none) :
    ∃ query, source = .subquery query source.aliasName ∧
      query.Written names plan book select ∧ source.StandsFor names plan book select := by
  cases h with
  | table hscan => simp [hnone] at hscan
  | subquery _ hquery _ halias =>
      exact ⟨_, rfl, hquery, halias, by rw [hnone]; exact .none⟩

theorem covers_subquery {query : Statement} {selects : List SelectId} {tables : List T}
    (hsource : source = .subquery query source.aliasName)
    (hstands : source.StandsFor names plan book select)
    (hquery : List.Forall₂ (Source.StandsFor names plan book) query.allSources selects)
    (hjoins : (query.levels.flatMap Statement.joins).length + 1 = tables.length) :
    source.Covers names plan book (selects ++ [select]) tables := by
  rw [hsource] at hstands ⊢
  exact ⟨List.rel_append hquery (.cons hstands .nil), hjoins⟩

end Source.Written

theorem Statement.Written.covers_join {statement : Statement} {join : PlanJoin}
    {selects selects' : List SelectId} {tables tables' : List T}
    (h : statement.Written names plan book select)
    (hselect : plan.selects[select]? = some (.join join))
    (hparent : ∀ {source scope}, Source.Written names plan book .parent source join.parent scope →
      source.Covers names plan book selects tables)
    (hchild : ∀ {source scope}, Source.Written names plan book .child source join.child scope →
      source.Covers names plan book selects' tables') :
    List.Forall₂ (Source.StandsFor names plan book) statement.allSources (selects ++ selects') ∧
      (statement.levels.flatMap Statement.joins).length + 1 = (tables ++ tables').length := by
  obtain ⟨items, parent, child, scope, scope', operations, orderBy, rfl, hsource, hsource', -, -⟩ :=
    h.of_join hselect
  obtain ⟨hstand, hcount⟩ := hparent hsource
  obtain ⟨hstand', hcount'⟩ := hchild hsource'
  constructor
  · simp only [Statement.allSources, Join.within, List.append_nil]
    exact List.rel_append hstand hstand'
  · simp only [Statement.levels, Join.levels, List.append_nil, List.flatMap_cons,
      List.flatMap_append, List.length_append, List.length_singleton]
    omega

end Sources

section Trees

variable [DecidableEq T] [DecidableEq C] {names : NameSource T C} {plan : Plan T C}
  {book : AliasBook T C} {side : Side} {tree : JoinTree T C} {incoming : List ColumnId}
  {first last : Mark} {operand : Operand} {source : Source} {scope : Scope} {statement : Statement}

/-- The source of a tree covers all selects of the tree and all its tables. -/
theorem Plan.Laid.covers (h : plan.Laid side tree incoming first last operand)
    (hsource : source.Written names plan book side operand.select scope) :
    source.Covers names plan book (List.range' first.select (last.select - first.select))
      tree.tables := by
  induction h generalizing source scope with
  | @scan spec incoming first next scan hscan =>
      rw [TableScan.operand] at hsource
      have hcovers := hsource.covers_scan hscan.scanAt
      rw [hscan.table] at hcovers
      simpa using hcovers
  | @view spec incoming first next scan hscan hview hrowNumber =>
      rw [TableScan.viewOperand] at hsource
      obtain ⟨query, hquery, hwritten, hstands⟩ := hsource.exists_subquery
        (show plan.scanAt (first.select + 1) = none by rw [Plan.scanAt, hview])
      obtain ⟨items, inner, scope, orderBy, rfl, hinner, -⟩ := hwritten.of_view hview
      obtain ⟨hstand, hcount⟩ := hinner.covers_scan hscan.scanAt
      rw [hscan.table] at hcount
      have hcovers : source.Covers names plan book ([first.select] ++ [first.select + 1])
          [spec.table] :=
        Source.Written.covers_subquery hquery hstands
          (by simpa [Statement.allSources, Join.within] using hstand)
          (by simpa [Statement.levels, Join.levels] using hcount)
      simpa [List.range'_succ] using hcovers
  | @join side left right incoming shown first middle last next parent child multiplicity owner join
      hparent hid hchild hjoin ihp ihc =>
      rw [PlanJoin.operand] at hsource
      obtain ⟨query, hquery, hwritten, hstands⟩ := hsource.exists_subquery
        (show plan.scanAt last.select = none by rw [Plan.scanAt, hjoin.select])
      obtain ⟨hstand, hcount⟩ := hwritten.covers_join hjoin.select
        (fun h => ihp (hjoin.parent_eq ▸ h)) (fun h => ihc (hjoin.child_eq ▸ h))
      rw [hparent.range'_selects hchild, JoinTree.tables_join]
      exact Source.Written.covers_subquery hquery hstands hstand hcount

/-- The statement of a tree covers the tables of the tree, and its sources stand for different
selects. -/
theorem Plan.Laid.exists_covered (h : plan.Laid .parent tree incoming first last operand)
    (hwritten : statement.Written names plan book operand.select) :
    ∃ selects : List SelectId, selects.Nodup ∧
      List.Forall₂ (Source.StandsFor names plan book) statement.allSources selects ∧
      selects.filterMap (fun select => (plan.scanAt select).map TableScan.table) = tree.tables ∧
      (statement.levels.flatMap Statement.joins).length + 1 = tree.tables.length := by
  have hscanned := h.scanned_eq
  cases h with
  | @scan spec _ _ next scan hscan =>
      rw [TableScan.operand] at hwritten
      obtain ⟨items, source, scope, orderBy, rfl, hsource, -⟩ := hwritten.of_scan hscan.select
      obtain ⟨hstand, hcount⟩ := hsource.covers_scan hscan.scanAt
      refine ⟨[first.select], List.nodup_singleton _, ?_, by simpa using hscanned, ?_⟩
      · simpa [Statement.allSources, Join.within] using hstand
      · simpa [Statement.levels, Join.levels] using hcount
  | @join _ left right _ _ _ middle last _ parent child _ _ join hparent hid hchild hjoin =>
      obtain ⟨hstand, hcount⟩ := hwritten.covers_join hjoin.select
        (fun h => hparent.covers (hjoin.parent_eq ▸ h))
        (fun h => hchild.covers (hjoin.child_eq ▸ h))
      have hnone : plan.scanAt last.select = none := by rw [Plan.scanAt, hjoin.select]
      have hnodup : (List.range' first.select (last.select + 1 - first.select)).Nodup :=
        List.nodup_range'
      rw [hparent.range'_selects hchild] at hscanned hnodup
      rw [List.filterMap_append, List.filterMap_cons_none (by rw [hnone]; rfl), List.filterMap_nil,
        List.append_nil] at hscanned
      exact ⟨_, hnodup.of_append_left, hstand, hscanned, JoinTree.tables_join .. ▸ hcount⟩

end Trees

section Aliases

variable {plan : Plan T C}

/-- A scan bears the alias of its table, any other select one of its own. -/
theorem Plan.ownKey_select (plan : Plan T C) (select : SelectId) :
    plan.ownKey (.select select) =
      match plan.scanAt select with
      | some scan => .table scan.table
      | none => .select select := by
  cases hscan : plan.scanAt select with
  | some scan => rw [ownKey, select_of_scanAt hscan]
  | none =>
      rw [ownKey]
      split
      · rename_i scan hselect
        simp [scanAt, hselect] at hscan
      · rfl

/-- Different selects have different own keys, for no table has two scans. -/
theorem Plan.Laid.ownKey_select_inj {whole : JoinTree T C} {top : Operand}
    (hplan : plan.Laid .parent whole [] ⟨0, 0⟩ plan.parts.mark top) (hnodup : whole.tables.Nodup)
    {select select' : SelectId} (h : plan.ownKey (.select select) = plan.ownKey (.select select')) :
    select = select' := by
  rw [ownKey_select, ownKey_select] at h
  split at h <;> split at h
  · rename_i scan hscan _ scan' hscan'
    have htable : scan.table = scan'.table := AliasKey.table.inj h
    have hmem := hplan.table_mem (Nat.zero_le _) (lt_of_scanAt hscan) hscan
    exact (hplan.existsUnique_scan hnodup hmem).unique ⟨scan, hscan, rfl⟩
      ⟨scan', hscan', htable.symm⟩
  · cases h
  · cases h
  · exact AliasKey.select.inj h

variable [DecidableEq T] [DecidableEq C] {names : NameSource T C} {book : AliasBook T C}
  {sources : List Source} {selects : List SelectId}

theorem AliasBook.Sound.nodup_aliasNames (hbook : book.Sound plan)
    (hinj : ∀ {select select' : SelectId},
      plan.ownKey (.select select) = plan.ownKey (.select select') → select = select')
    (h : List.Forall₂ (Source.StandsFor names plan book) sources selects) (hnodup : selects.Nodup) :
    (sources.map Source.aliasName).Nodup := by
  have haliases : (sources.map Source.aliasName).map some =
      selects.map fun select => book.find? (.select select) := by
    rw [List.map_map]
    exact map_eq_of_forall₂ h fun _ _ hstands => hstands.find?_alias.symm
  apply List.Nodup.of_map some
  rw [haliases]
  apply hnodup.map_on
  intro select hselect select' _ heq
  obtain ⟨source, -, hstands⟩ := exists_mem_of_forall₂ h.flip hselect
  exact hinj (hbook.ownKey_eq _ _ _ hstands.find?_alias (heq ▸ hstands.find?_alias))

/-- The alias of a source that stands for a scan is that of the table. -/
theorem Source.StandsFor.table_alias {source : Source} {select : SelectId}
    (h : source.StandsFor names plan book select) (hbook : book.Sound plan) :
    Option.Rel (fun shown table => names.tableName table = .ok shown.1 ∧
      book.find? (.table table) = some shown.2) source.table?
      ((plan.scanAt select).map TableScan.table) := by
  have hshared := hbook.shared _ _ h.find?_alias
  have htable := h.table
  rw [Plan.ownKey_select] at hshared
  cases hscan : plan.scanAt select with
  | none =>
      rw [hscan] at htable
      cases source with
      | table => cases htable
      | subquery => exact .none
  | some scan =>
      rw [hscan] at htable hshared
      cases source with
      | table => cases htable with | some hname => exact .some ⟨hname, hshared⟩
      | subquery => cases htable

/-- Tables with the aliases that the book gives them bear the numbers under which it has them. -/
theorem AliasBook.Numbered.shown_eq {settings : Settings} (h : book.Numbered names plan settings)
    (hbook : book.Issued names plan) (hnodup : book.tables.Nodup)
    {shown : List (String × String)} {tableNames : List String}
    (hshown : List.Forall₂ (fun shown table => names.tableName table = .ok shown.1 ∧
      book.find? (.table table) = some shown.2) shown book.tables)
    (hnames : book.tables.mapM names.tableName = .ok tableNames) :
    shown = tableNames.mapIdx fun position name =>
      (name, settings.aliasText .table (position + 1) name) := by
  have htables := forall₂_of_mapM_eq_ok hnames
  apply List.ext_getElem
  · rw [List.length_mapIdx, hshown.length_eq, htables.length_eq]
  intro position hlt hlt'
  rw [List.length_mapIdx] at hlt'
  have hlast : position < book.tables.length := hshown.length_eq ▸ hlt
  obtain ⟨name, hname, hfind⟩ := h.find?_table hbook hnodup (List.getElem?_eq_getElem hlast)
  obtain ⟨hfirst, hsecond⟩ := List.forall₂_iff_get.mp hshown |>.2 position hlt hlast
  have hgiven := (List.forall₂_iff_get.mp htables).2 position hlt' hlast
  rw [List.getElem_mapIdx]
  simp only [List.get_eq_getElem] at hfirst hsecond hgiven
  obtain rfl := Except.ok.inj (hname.symm.trans hgiven)
  exact Prod.ext (Except.ok.inj (hfirst.symm.trans hname))
    (Option.some.inj (hsecond.symm.trans hfind))

end Aliases

section Joins

variable [DecidableEq T] [DecidableEq C] {names : NameSource T C} {plan : Plan T C}
  {book : AliasBook T C} {whole : JoinTree T C} {top : Operand}

/-- All joins of a written statement are full outer joins on an id column and on row numbers. -/
theorem Statement.Written.fullOuter {statement : Statement} {select : SelectId}
    (h : statement.Written names plan book select)
    (hplan : plan.Laid .parent whole [] ⟨0, 0⟩ plan.parts.mark top) :
    ∀ join ∈ statement.levels.flatMap Statement.joins,
      join.kind = .fullOuter ∧ 2 ≤ join.conditions.length := by
  intro join hjoin
  obtain ⟨level, hlevel, hjoin⟩ := List.mem_flatMap.mp hjoin
  obtain ⟨part, hpart⟩ := h.exists_of_mem_levels hlevel
  cases hpart with
  | scan => cases hjoin
  | view => cases hjoin
  | join hselect _ _ hconditions =>
      obtain rfl := List.mem_singleton.mp hjoin
      obtain ⟨_, _, _, _, _, _, _, _, _, _, _, _, -, -, hid, hchild, hhas, -⟩ :=
        hplan.exists_hasJoin_of_select hselect
      obtain ⟨compared, hcompared⟩ := hchild.exists_compared hid
      have hpos := List.length_pos_of_mem hcompared
      have hlength := (forall₂_of_mapM_eq_ok hconditions).length_eq
      rw [hhas.conditions, List.length_append, List.length_map, List.length_singleton] at hlength
      exact ⟨rfl, by dsimp only; omega⟩

end Joins

theorem Statement.Written.mem_outputNames [DecidableEq T] [DecidableEq C] {names : NameSource T C}
    {plan : Plan T C} {book : AliasBook T C} {statement : Statement} {select : SelectId}
    {column : ColumnId} {aliasName : String} (h : statement.Written names plan book select)
    (hc : column ∈ plan.columnsOf select) (hfind : book.find? (.column column) = some aliasName) :
    aliasName ∈ statement.outputNames := by
  obtain ⟨item, hitem, name, hname, halias⟩ := exists_mem_of_forall₂ h.exports.flip hc
  rw [Aliasing.column, Aliasing.memo_of_find? hfind] at halias
  obtain rfl := Except.ok.inj halias
  exact List.mem_filterMap.mpr ⟨item, hitem, hname⟩

section Whole

variable [DecidableEq T] [DecidableEq C] {names : NameSource T C} {plan : Plan T C}
  {whole : JoinTree T C} {top : Operand} {settings : Settings} {statement : Statement}
  {book : AliasBook T C}

/-- A written statement of a plan reads each table once, if the book has the tables in order. -/
theorem Statement.Written.scansOnce (h : statement.Written names plan book top.select)
    (hplan : plan.Laid .parent whole [] ⟨0, 0⟩ plan.parts.mark top) (hroot : plan.root = top.select)
    (hnodup : book.tables.Nodup) (htables : book.tables = whole.tables)
    (hissued : book.Issued names plan) (hnumbered : book.Numbered names plan settings)
    (horder : List.Forall₂ (fun item column => ∃ name, item = ⟨.aliasRef name, .ascending⟩ ∧
      book.find? (.column column) = some name) statement.orderBy plan.orderedBy)
    {tableNames : List String} (hnames : book.tables.mapM names.tableName = .ok tableNames) :
    statement.ScansOnce settings tableNames := by
  obtain ⟨selects, hselects, hstand, hscanned, hjoins⟩ := hplan.exists_covered h
  have hshown := List.rel_filterMap (R := Source.StandsFor names plan book)
    (fun _ _ hstands => hstands.table_alias hissued.toSound) hstand
  have hlength := (forall₂_of_mapM_eq_ok hnames).length_eq
  have hperm := statement.perm_allSources
  rw [hscanned, ← htables] at hshown
  rw [← htables] at hjoins
  constructor
  · rw [← hnumbered.shown_eq hissued hnodup hshown hnames]
    exact hperm.filterMap _
  · apply (hperm.map _).nodup_iff.mpr
    exact hissued.toSound.nodup_aliasNames (hplan.ownKey_select_inj (htables ▸ hnodup)) hstand
      hselects
  · rw [hjoins, hlength]
  · exact h.fullOuter hplan
  · rw [horder.length_eq, hplan.length_orderedBy hroot, hlength, htables]
  · intro item hitem
    obtain ⟨column, hc, name, hname, hfind⟩ := exists_mem_of_forall₂ horder hitem
    have hshows := h.mem_outputNames (hplan.orderedBy_subset hroot hc) hfind
    exact ⟨name, hshows, hname⟩
  · exact h.orderBy_eq_nil

/-- From an empty book the query of a plan reads each table once: the book at its end has the tables
in the order of the tree, with the numbers of their positions. -/
theorem Lowering.exists_scansOnce {specs : List (TableSpec T C)} (hknows : names.Knows specs)
    (hplan : plan.Laid .parent whole [] ⟨0, 0⟩ plan.parts.mark top) (hspecs : whole.specs ⊆ specs)
    (hroot : plan.root = top.select) (hnodup : whole.tables.Nodup) {tableNames : List String}
    (hnames : whole.tables.mapM names.tableName = .ok tableNames) (settings : Settings) :
    ∃ statement book, (query names plan).on { settings } = (.ok statement, book) ∧
      statement.ScansOnce settings tableNames := by
  have hempty := AliasBook.issued_empty names plan settings
  obtain ⟨statement, book, hstatement, hissued, hwritten, horder⟩ :=
    exists_written hknows hplan hspecs hroot hempty
  have htables : book.tables = whole.tables :=
    registers_query hplan hroot { settings } statement book hempty hnodup hstatement
  have hnumbered := (asks_query names plan).numbered settings { settings }
    (AliasBook.numbered_empty names plan settings)
  rw [hstatement] at hnumbered
  rw [hroot] at hwritten
  rw [← htables] at hnames hnodup
  exact ⟨statement, book, hstatement,
    hwritten.scansOnce hplan hroot hnodup htables hissued hnumbered horder hnames⟩

end Whole

namespace Draft

variable [DecidableEq T] [DecidableEq C] [ToString T] {root : TableSpec T C}
  {additions : List (Addition T C)} {draft : Draft T C} {plan : Plan T C} {names : NameSource T C}

theorem exists_query_scansOnce (h : assemble root additions = .ok draft)
    (hplan : draft.plan = .ok plan) (hknows : names.Knows (root :: additions.map Addition.spec))
    {tableNames : List String}
    (hnames : (AggregateTree.ofAdditions root additions).joinTree.tables.mapM names.tableName =
      .ok tableNames) (settings : Settings) :
    ∃ statement book, (Lowering.query names plan).on { settings } = (.ok statement, book) ∧
      statement.ScansOnce settings tableNames := by
  obtain ⟨top, hlaid, hroot, hnodup, -⟩ := laid_of_assemble h hplan
  exact Lowering.exists_scansOnce hknows hlaid (specs_of_assemble h).subset hroot hnodup hnames
    settings

end Draft

end FlatAggregate
