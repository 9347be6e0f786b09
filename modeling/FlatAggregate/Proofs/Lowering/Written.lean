import FlatAggregate.Proofs.Alias.Recall
import FlatAggregate.Proofs.Lowering.Programs
import FlatAggregate.Proofs.Lowering.References

/-!
# What lowering writes

`Statement.Written` says which statements are written for a select, and `Source.Written` which
sources, in terms of the plan and of a book alone: a level shows the columns of its select one by
one, each by its expression in scope and under the alias that the book gives it; a join stands over
the sources of both its sides, the parent side being a bare table where a scan stands there.

Every book that recalls a statement of a built plan has it written in this way
(`Lowering.written_of_recalls`). The query of the plan is recalled by the book that it leaves behind
(`Lowering.exists_written`), so what holds of all written statements holds of it.
-/

namespace FlatAggregate

variable {T C : Type}

theorem exists_mem_of_forall₂ {α β : Type} {R : α → β → Prop} {items : List α} {results : List β}
    (h : List.Forall₂ R items results) {item : α} (hitem : item ∈ items) :
    ∃ result ∈ results, R item result := by
  obtain ⟨position, hposition⟩ := List.mem_iff_getElem?.mp hitem
  obtain ⟨result, hresult, hrel⟩ := exists_getElem?_of_forall₂ h hposition
  exact ⟨result, List.mem_of_getElem? hresult, hrel⟩

section Relation

variable [DecidableEq T] [DecidableEq C]

/-- An item exports a column: it has the expression of the column, under the alias that the book
gives when it is asked for that column. -/
def SelectItem.Exports (names : NameSource T C) (plan : Plan T C) (book : AliasBook T C)
    (scope : Scope) (item : SelectItem) (column : ColumnId) : Prop :=
  plan.expression scope column = .ok item.expr ∧
    ∃ name, item.outputName = some name ∧ ((Aliasing.column names plan column).on book).1 = .ok name

mutual

/-- A statement as it is written for a select, but for its order, which is left open. -/
inductive Statement.Written (names : NameSource T C) (plan : Plan T C) (book : AliasBook T C) :
    Statement → SelectId → Prop
  | scan {select : SelectId} {scan : TableScan T} {source : Source} {scope : Scope}
      {items : List SelectItem} {orderBy : List OrderItem}
      (hselect : plan.selects[select]? = some (.scan scan))
      (hsource : Source.Written names plan book .parent source select scope)
      (hitems : List.Forall₂ (SelectItem.Exports names plan book scope) items
        (plan.columnsOf select)) :
    Statement.Written names plan book ⟨items, source, [], orderBy⟩ select
  | view {select table : SelectId} {rowNumber : ColumnId} {source : Source} {scope : Scope}
      {items : List SelectItem} {orderBy : List OrderItem}
      (hselect : plan.selects[select]? = some (.view table rowNumber))
      (hsource : Source.Written names plan book .parent source table scope)
      (hitems : List.Forall₂ (SelectItem.Exports names plan book scope) items
        (plan.columnsOf select)) :
    Statement.Written names plan book ⟨items, source, [], orderBy⟩ select
  | join {select : SelectId} {join : PlanJoin} {parent child : Source} {scope scope' : Scope}
      {operations : List Operation} {items : List SelectItem} {orderBy : List OrderItem}
      (hselect : plan.selects[select]? = some (.join join))
      (hparent : Source.Written names plan book .parent parent join.parent scope)
      (hchild : Source.Written names plan book .child child join.child scope')
      (hconditions : join.conditions.mapM (Lowering.condition plan (scope ++ scope')) =
        .ok operations)
      (hitems : List.Forall₂ (SelectItem.Exports names plan book (scope ++ scope')) items
        (plan.columnsOf select)) :
    Statement.Written names plan book ⟨items, parent, [⟨child, operations, .fullOuter⟩], orderBy⟩
      select

/-- A source as it is written for one side of a join, with what it shows: a bare table on the
parent side, or an inline query without an order. -/
inductive Source.Written (names : NameSource T C) (plan : Plan T C) (book : AliasBook T C) :
    Side → Source → SelectId → Scope → Prop
  | table {select : SelectId} {scan : TableScan T} {name aliasName : String}
      {shown : List (ColumnId × String)} (hscan : plan.scanAt select = some scan)
      (hname : names.tableName scan.table = .ok name)
      (halias : book.find? (.select select) = some aliasName)
      (hcolumns : shown.map Prod.fst = scan.allColumns)
      (hshown : ∀ entry ∈ shown, names.stored? plan entry.1 = some entry.2) :
    Source.Written names plan book .parent (.table name aliasName) select
      (shown.map fun (column, name) => (column, ⟨.property aliasName name, false⟩))
  | subquery {side : Side} {select : SelectId} {query : Statement} {aliasName : String}
      {shown : List (ColumnId × String)} (hbare : side = .parent → plan.scanAt select = none)
      (hquery : Statement.Written names plan book query select) (horder : query.orderBy = [])
      (halias : book.find? (.select select) = some aliasName)
      (hshown : List.Forall₂ (fun entry column => entry.1 = plan.canonical column ∧
        book.find? (.column column) = some entry.2) shown (plan.columnsOf select)) :
    Source.Written names plan book side (.subquery query aliasName) select
      (shown.map fun (column, name) => (column, ⟨.property aliasName name, true⟩))

end

/-- The columns by which a query is ordered: the identity and the row number of a join at the
top. -/
def Plan.orderedBy (plan : Plan T C) : List ColumnId :=
  match plan.selects[plan.root]? with
  | some (.join join) => join.identity ++ [join.rowNumber]
  | _ => []

theorem Statement.Written.withOrder {names : NameSource T C} {plan : Plan T C}
    {book : AliasBook T C} {statement : Statement} {select : SelectId}
    (h : statement.Written names plan book select) (orderBy : List OrderItem) :
    Statement.Written names plan book { statement with orderBy } select := by
  cases h with
  | scan hselect hsource hitems => exact .scan hselect hsource hitems
  | view hselect hsource hitems => exact .view hselect hsource hitems
  | join hselect hparent hchild hconditions hitems =>
      exact .join hselect hparent hchild hconditions hitems

namespace Statement.Written

variable {names : NameSource T C} {plan : Plan T C} {book : AliasBook T C} {statement : Statement}
  {select : SelectId} (h : statement.Written names plan book select)

include h

theorem lt_size : select < plan.selects.size := by
  cases h with
  | scan hselect => exact (Array.getElem?_eq_some_iff.mp hselect).1
  | view hselect => exact (Array.getElem?_eq_some_iff.mp hselect).1
  | join hselect => exact (Array.getElem?_eq_some_iff.mp hselect).1

theorem of_scan {scan : TableScan T} (hselect : plan.selects[select]? = some (.scan scan)) :
    ∃ items source scope orderBy, statement = ⟨items, source, [], orderBy⟩ ∧
      source.Written names plan book .parent select scope ∧
      List.Forall₂ (SelectItem.Exports names plan book scope) items (plan.columnsOf select) := by
  cases h with
  | scan _ hsource hitems => exact ⟨_, _, _, _, rfl, hsource, hitems⟩
  | view hselect' => simp [hselect] at hselect'
  | join hselect' => simp [hselect] at hselect'

theorem of_view {table : SelectId} {rowNumber : ColumnId}
    (hselect : plan.selects[select]? = some (.view table rowNumber)) :
    ∃ items source scope orderBy, statement = ⟨items, source, [], orderBy⟩ ∧
      source.Written names plan book .parent table scope ∧
      List.Forall₂ (SelectItem.Exports names plan book scope) items (plan.columnsOf select) := by
  cases h with
  | scan hselect' => simp [hselect] at hselect'
  | view hselect' hsource hitems =>
      obtain ⟨rfl, -⟩ := PlanSelect.view.inj (Option.some.inj (hselect.symm.trans hselect'))
      exact ⟨_, _, _, _, rfl, hsource, hitems⟩
  | join hselect' => simp [hselect] at hselect'

theorem of_join {join : PlanJoin} (hselect : plan.selects[select]? = some (.join join)) :
    ∃ items parent child scope scope' operations orderBy,
      statement = ⟨items, parent, [⟨child, operations, .fullOuter⟩], orderBy⟩ ∧
      parent.Written names plan book .parent join.parent scope ∧
      child.Written names plan book .child join.child scope' ∧
      join.conditions.mapM (Lowering.condition plan (scope ++ scope')) = .ok operations ∧
      List.Forall₂ (SelectItem.Exports names plan book (scope ++ scope')) items
        (plan.columnsOf select) := by
  cases h with
  | scan hselect' => simp [hselect] at hselect'
  | view hselect' => simp [hselect] at hselect'
  | join hselect' hparent hchild hconditions hitems =>
      obtain rfl := PlanSelect.join.inj (Option.some.inj (hselect.symm.trans hselect'))
      exact ⟨_, _, _, _, _, _, _, rfl, hparent, hchild, hconditions, hitems⟩

end Statement.Written

namespace Source.Written

variable {names : NameSource T C} {plan : Plan T C} {book : AliasBook T C} {side : Side}
  {source : Source} {select : SelectId} {scope : Scope}
  (h : source.Written names plan book side select scope)

include h

theorem exists_property : ∀ entry ∈ scope, ∃ name,
    entry.2.expr = .property source.aliasName name := by
  intro entry hentry
  cases h with
  | table => exact (List.mem_map.mp hentry).elim fun shown hshown => ⟨shown.2, hshown.2 ▸ rfl⟩
  | subquery => exact (List.mem_map.mp hentry).elim fun shown hshown => ⟨shown.2, hshown.2 ▸ rfl⟩

theorem find?_aliasName : book.find? (.select select) = some source.aliasName := by
  cases h with
  | table _ _ halias => exact halias
  | subquery _ _ _ halias => exact halias

theorem exists_table (hside : side = .parent) {scan : TableScan T}
    (hscan : plan.scanAt select = some scan) :
    ∃ name, source = .table name source.aliasName ∧ names.tableName scan.table = .ok name := by
  cases h with
  | table hscan' hname =>
      obtain rfl := Option.some.inj (hscan'.symm.trans hscan)
      exact ⟨_, rfl, hname⟩
  | subquery hbare => simp [hbare hside] at hscan

/-- What is shown under an alias bears the alias of a column that shows the same. -/
theorem aliased : ∀ entry ∈ scope, entry.2.aliased → ∃ aliasName name column,
    entry.2.expr = .property aliasName name ∧ entry.1 = plan.canonical column ∧
      book.find? (.column column) = some name := by
  intro entry hentry haliased
  cases h with
  | table =>
      obtain ⟨shown, -, rfl⟩ := List.mem_map.mp hentry
      cases haliased
  | subquery _ _ _ _ hshown =>
      obtain ⟨shown, hmem, rfl⟩ := List.mem_map.mp hentry
      obtain ⟨column, -, hcanonical, hfind⟩ := exists_mem_of_forall₂ hshown hmem
      exact ⟨_, shown.2, column, rfl, hcanonical, hfind⟩

end Source.Written

theorem Plan.Laid.map_fst_scope {names : NameSource T C} {plan : Plan T C} {book : AliasBook T C}
    {side part : Side} {tree : JoinTree T C} {incoming : List ColumnId} {first last : Mark}
    {operand : Operand} (h : plan.Laid part tree incoming first last operand) {source : Source}
    {scope : Scope} (hsource : source.Written names plan book side operand.select scope) :
    scope.map Prod.fst = operand.columns.map plan.canonical := by
  cases hsource with
  | @table _ scan _ _ shown hscan _ _ hcolumns =>
      obtain ⟨_, _, _, _, _, _, hlaid, -⟩ := h.exists_hasScan h.room.1 h.room.2.1 hscan
      have hoperand : operand.columns = scan.allColumns := by
        rw [← h.offers.1, Plan.columnsOf, Plan.select_of_scanAt hscan]
      rw [hoperand, List.map_congr_left fun c hc => hlaid.canonical_eq hc, List.map_id',
        List.map_map]
      exact hcolumns
  | subquery _ _ _ _ hshown =>
      rw [← h.offers.1, List.map_map]
      exact map_eq_of_forall₂ hshown fun _ _ hentry => hentry.1

end Relation

namespace Lowering

open Aliasing

variable [DecidableEq T] [DecidableEq C] {names : NameSource T C} {plan : Plan T C}
  {book : AliasBook T C} {specs : List (TableSpec T C)} {side : Side} {tree : JoinTree T C}
  {incoming : List ColumnId} {first last : Mark} {operand : Operand} {next : Nat}
  {scan : TableScan T} {spec : TableSpec T C} {source : Source} {scope : Scope}
  (hbook : book.Issued names plan)

include hbook

theorem exports_of_recalls {item : SelectItem} {column : ColumnId}
    (hscope : ∀ entry ∈ scope, entry.2.aliased → ∃ aliasName name column,
      entry.2.expr = .property aliasName name ∧ entry.1 = plan.canonical column ∧
        book.find? (.column column) = some name)
    (hnamed : plan.Named names column)
    (h : book.Recalls (selectItem names plan scope column) item) :
    item.Exports names plan book scope column := by
  have hgiven : book.Recalls (do
      let expr ← liftM (plan.expression scope column)
      return ⟨expr, some (← Aliasing.column names plan column)⟩) item →
      item.Exports names plan book scope column := fun h => by
    obtain ⟨expr, hexpr, h⟩ := AliasBook.recalls_lift_bind h
    obtain ⟨name, hname, h⟩ :=
      AliasBook.recalls_bind hbook (Asks.column column) (fun _ => Asks.pure _) h
    rw [AliasBook.recalls_pure] at h
    subst h
    exact ⟨hexpr, name, rfl, congrArg Prod.fst hname⟩
  rw [selectItem] at h
  split at h
  · rename_i expr hfind
    rw [AliasBook.recalls_pure] at h
    subst h
    obtain ⟨aliasName, name, other, hproperty, hcanonical, hother⟩ :=
      hscope _ (Scope.mem_of_find? hfind) rfl
    dsimp only at hproperty hcanonical
    subst hproperty
    refine ⟨plan.expression_of_find? hfind, name, rfl, ?_⟩
    -- asked for its own alias, the column gets that of the column that shows the same
    obtain ⟨given, later, hon, hsound, hextends, hgiven⟩ :=
      finds_column hnamed book hbook.toSound
    rw [hon, hsound.alias_eq hgiven (hextends _ _ hother)]
    simp only [Plan.ownKey, hcanonical]
  · exact hgiven h

theorem exports_of_recalls_selectItems {items : List SelectItem} {columns : List ColumnId}
    (hscope : ∀ entry ∈ scope, entry.2.aliased → ∃ aliasName name column,
      entry.2.expr = .property aliasName name ∧ entry.1 = plan.canonical column ∧
        book.find? (.column column) = some name)
    (hnamed : ∀ c ∈ columns, plan.Named names c)
    (h : book.Recalls (selectItems names plan scope columns) items) :
    List.Forall₂ (SelectItem.Exports names plan book scope) items columns := by
  have hitems : List.Forall₂ (fun item column => book.Recalls (selectItem names plan scope column)
      item) items columns :=
    AliasBook.recalls_mapM hbook (asks_selectItem names plan scope) h
  have hmem := (List.forall₂_and_left _ _).mpr ⟨hnamed, hitems.flip⟩
  exact hmem.flip.imp fun item column h => exports_of_recalls hbook hscope h.1 h.2

section Tables

variable (hknows : names.Knows specs) (hspec : spec ∈ specs)
  (hincoming : plan.Incoming specs first incoming)
  (hscan : plan.HasScan spec incoming first next scan)

include hknows hspec hincoming hscan

theorem written_table
    (h : book.Recalls (tableSource names plan first.select scan) (source, scope)) :
    source.Written names plan book .parent first.select scope := by
  obtain ⟨aliasName, halias, h⟩ := AliasBook.recalls_bind hbook (Asks.select first.select)
    (fun _ => (Asks.lift _).bind fun _ => (Asks.lift _).bind fun _ => Asks.pure _) h
  obtain ⟨stored, hstored, h⟩ := AliasBook.recalls_lift_bind h
  obtain ⟨name, hname, h⟩ := AliasBook.recalls_lift_bind h
  obtain ⟨shown, hscope, hcolumns, hshown⟩ := exists_tableScope aliasName
    fun column hc => hscan.storedColumn hknows hspec hincoming hc
  obtain rfl := Except.ok.inj (hstored.symm.trans hscope)
  obtain ⟨rfl, rfl⟩ := Prod.mk.inj (AliasBook.recalls_pure.mp h)
  exact .table hscan.scanAt hname (AliasBook.find?_of_recalls hbook halias) hcolumns hshown

end Tables

/-- What the scope of an inline query lists, by the aliases of the columns. -/
theorem exists_shown_of_recalls {aliasName : String} {columns : List ColumnId}
    (h : book.Recalls (columns.mapM (shownColumn names plan aliasName)) scope) :
    ∃ shown : List (ColumnId × String),
      scope = shown.map (fun (column, name) => (column, ⟨.property aliasName name, true⟩)) ∧
      List.Forall₂ (fun entry column => entry.1 = plan.canonical column ∧
        book.find? (.column column) = some entry.2) shown columns := by
  have hentries : List.Forall₂ (fun entry column =>
      book.Recalls (shownColumn names plan aliasName column) entry) scope columns :=
    AliasBook.recalls_mapM hbook (asks_shownColumn names plan aliasName) h
  clear h
  induction hentries with
  | nil => exact ⟨[], rfl, .nil⟩
  | @cons entry column _ _ hentry _ ih =>
      obtain ⟨shown, rfl, hshown⟩ := ih
      obtain ⟨name, hname, hentry⟩ :=
        AliasBook.recalls_bind hbook (Asks.column column) (fun _ => Asks.pure _) hentry
      obtain rfl := AliasBook.recalls_pure.mp hentry
      have hfind : book.find? (.column column) = some name :=
        AliasBook.find?_of_recalls hbook hname
      exact ⟨(plan.canonical column, name) :: shown, rfl, .cons ⟨rfl, hfind⟩ hshown⟩

theorem written_queried {select : SelectId} (hbare : side = .parent → plan.scanAt select = none)
    (hstatement : ∀ query, book.Recalls (statement names plan select) query →
      query.Written names plan book select ∧ query.orderBy = [])
    (h : book.Recalls (queriedSource names plan select) (source, scope)) :
    source.Written names plan book side select scope := by
  obtain ⟨query, hquery, h⟩ := AliasBook.recalls_bind hbook (asks_statement names plan select)
    (asks_subquerySource names plan select) h
  obtain ⟨hwritten, horder⟩ := hstatement query hquery
  obtain ⟨aliasName, halias, h⟩ := AliasBook.recalls_bind hbook (Asks.select select)
    (fun aliasName => (Asks.mapM (asks_shownColumn names plan aliasName)).bind fun _ =>
      Asks.pure _) h
  obtain ⟨scope', hscope, h⟩ := AliasBook.recalls_bind hbook
    (Asks.mapM (asks_shownColumn names plan aliasName)) (fun _ => Asks.pure _) h
  obtain ⟨rfl, rfl⟩ := Prod.mk.inj (AliasBook.recalls_pure.mp h)
  obtain ⟨shown, rfl, hshown⟩ := exists_shown_of_recalls hbook hscope
  have hfind : book.find? (.select select) = some aliasName :=
    AliasBook.find?_of_recalls hbook halias
  exact .subquery hbare hwritten horder hfind hshown

section Levels

variable {select part : SelectId} {columns : List ColumnId} {result : Statement}
  (hnamed : ∀ c ∈ plan.columnsOf select, plan.Named names c)

include hnamed

theorem exports_of_recalls_tableLevel (hcolumns : plan.columnsOf select = columns)
    (hsource : source.Written names plan book side part scope)
    (h : book.Recalls (tableLevel names plan columns (source, scope)) result) :
    ∃ items, result = ⟨items, source, [], []⟩ ∧
      List.Forall₂ (SelectItem.Exports names plan book scope) items (plan.columnsOf select) := by
  obtain ⟨items, hitems, h⟩ := AliasBook.recalls_bind hbook
    (asks_selectItems names plan scope columns) (fun _ => Asks.pure _) h
  obtain rfl := AliasBook.recalls_pure.mp h
  subst hcolumns
  exact ⟨items, rfl, exports_of_recalls_selectItems hbook hsource.aliased hnamed hitems⟩

theorem written_joinLevel {join : PlanJoin} {parent child : Source} {scope' : Scope}
    (hselect : plan.selects[select]? = some (.join join))
    (hparent : parent.Written names plan book .parent join.parent scope)
    (hchild : child.Written names plan book .child join.child scope')
    (h : book.Recalls (joinLevel names plan join (parent, scope) (child, scope')) result) :
    result.Written names plan book select ∧ result.orderBy = [] := by
  obtain ⟨operations, hoperations, h⟩ := AliasBook.recalls_lift_bind h
  obtain ⟨items, hitems, h⟩ := AliasBook.recalls_bind hbook
    (asks_selectItems names plan (scope ++ scope') join.columns) (fun _ => Asks.pure _) h
  obtain rfl := AliasBook.recalls_pure.mp h
  have hcolumns : plan.columnsOf select = join.columns := by rw [Plan.columnsOf, hselect]
  have hexports := exports_of_recalls_selectItems hbook (fun entry hentry =>
    (List.mem_append.mp hentry).elim (hparent.aliased entry) (hchild.aliased entry))
    (hcolumns ▸ hnamed) hitems
  exact ⟨.join hselect hparent hchild hoperations (hcolumns ▸ hexports), rfl⟩

end Levels

section Trees

variable (hknows : names.Knows specs)

include hknows

/-- The parent side of a join is a bare table or an inline query. -/
theorem written_parentSource (h : plan.Laid .parent tree incoming first last operand)
    (hspecs : tree.specs ⊆ specs) (hincoming : plan.Incoming specs first incoming)
    (hstatement : ∀ query, book.Recalls (statement names plan operand.select) query →
      query.Written names plan book operand.select ∧ query.orderBy = [])
    (hsource : book.Recalls (parentSource names plan operand.select) (source, scope)) :
    source.Written names plan book .parent operand.select scope := by
  cases h with
  | scan hscan =>
      rw [TableScan.operand, parentSource_table names hscan] at hsource
      exact written_table hbook hknows (hspecs JoinTree.mem_specs_table) hincoming hscan hsource
  | join hparent hid hchild hjoin =>
      rw [PlanJoin.operand, parentSource_join names hjoin] at hsource
      refine written_queried hbook (fun _ => ?_) hstatement hsource
      rw [Plan.scanAt, PlanJoin.operand, hjoin.select]

theorem written_of_recalls (h : plan.Laid side tree incoming first last operand)
    (hspecs : tree.specs ⊆ specs) (hincoming : plan.Incoming specs first incoming)
    {result : Statement} (hresult : book.Recalls (statement names plan operand.select) result) :
    result.Written names plan book operand.select ∧ result.orderBy = [] := by
  have hnamed : ∀ c ∈ plan.columnsOf operand.select, plan.Named names c :=
    h.offers.1 ▸ h.named hknows hspecs hincoming
  induction h generalizing result with
  | scan hscan =>
      rw [TableScan.operand, statement_scan names hscan] at hresult
      obtain ⟨⟨source, scope⟩, hsource, hlevel⟩ := AliasBook.recalls_bind hbook
        (asks_tableSource names plan _ _) (asks_tableLevel names plan _) hresult
      have hwritten :=
        written_table hbook hknows (hspecs JoinTree.mem_specs_table) hincoming hscan hsource
      obtain ⟨items, rfl, hitems⟩ := exports_of_recalls_tableLevel hbook hnamed
        (Plan.Laid.scan hscan).offers.1 hwritten hlevel
      exact ⟨.scan hscan.select hwritten hitems, rfl⟩
  | view hscan hview hrowNumber =>
      rw [TableScan.viewOperand, statement_view names hscan hview] at hresult
      obtain ⟨⟨source, scope⟩, hsource, hlevel⟩ := AliasBook.recalls_bind hbook
        (asks_tableSource names plan _ _) (asks_tableLevel names plan _) hresult
      have hwritten :=
        written_table hbook hknows (hspecs JoinTree.mem_specs_table) hincoming hscan hsource
      obtain ⟨items, rfl, hitems⟩ := exports_of_recalls_tableLevel hbook hnamed
        (Plan.Laid.view hscan hview hrowNumber).offers.1 hwritten hlevel
      exact ⟨.view hview hwritten hitems, rfl⟩
  | @join side left right incoming shown first middle last next parent child multiplicity owner join
      hparent hid hchild hjoin ihp ihc =>
      have hsides := List.append_subset.mp hspecs
      have hincoming' := hparent.incoming_id hsides.1 hincoming
      rw [PlanJoin.operand, statement_join names hparent hchild hjoin] at hresult
      obtain ⟨⟨source, scope⟩, hsource, hrest⟩ := AliasBook.recalls_bind hbook
        (asks_parentSource names plan _) (fun x => (asks_queriedSource names plan _).bind
          (asks_joinLevel names plan join x)) hresult
      obtain ⟨⟨source', scope'⟩, hsource', hlevel⟩ := AliasBook.recalls_bind hbook
        (asks_queriedSource names plan _) (asks_joinLevel names plan join _) hrest
      have hwritten : source.Written names plan book .parent join.parent scope := by
        rw [hjoin.parent_eq]
        refine written_parentSource hbook hknows hparent hsides.1 hincoming (fun query hquery => ?_)
          hsource
        exact ihp hsides.1 hincoming hquery
          (hparent.offers.1 ▸ hparent.named hknows hsides.1 hincoming)
      have hwritten' : source'.Written names plan book .child join.child scope' := by
        rw [hjoin.child_eq]
        refine written_queried hbook (fun h => by cases h) (fun query hquery => ?_) hsource'
        exact ihc hsides.2 hincoming' hquery
          (hchild.offers.1 ▸ hchild.named hknows hsides.2 hincoming')
      exact written_joinLevel hbook hnamed hjoin.select hwritten hwritten' hlevel

end Trees

theorem orderBy_of_recalls {statement result : Statement}
    (hnone : statement.orderBy = []) (h : book.Recalls (ordered names plan statement) result) :
    ∃ orderBy, result = { statement with orderBy } ∧
      List.Forall₂ (fun item column => ∃ name, item = ⟨.aliasRef name, .ascending⟩ ∧
        book.find? (.column column) = some name) orderBy plan.orderedBy := by
  rw [ordered] at h
  split at h
  · rename_i join hjoin
    have hcolumns : plan.orderedBy = join.identity ++ [join.rowNumber] := by
      rw [Plan.orderedBy, hjoin]
    rw [hcolumns]
    obtain ⟨orderBy, hitems, h⟩ := AliasBook.recalls_bind hbook
      (Asks.mapM (asks_orderItem names plan)) (fun _ => Asks.pure _) h
    obtain rfl := AliasBook.recalls_pure.mp h
    refine ⟨orderBy, rfl, (AliasBook.recalls_mapM hbook (asks_orderItem names plan) hitems).imp ?_⟩
    intro item column hitem
    obtain ⟨name, hname, hitem⟩ :=
      AliasBook.recalls_bind hbook (Asks.column column) (fun _ => Asks.pure _) hitem
    exact ⟨name, (AliasBook.recalls_pure.mp hitem).symm, AliasBook.find?_of_recalls hbook hname⟩
  · rename_i hother
    have hcolumns : plan.orderedBy = [] := by
      rw [Plan.orderedBy]
      split
      · exact absurd ‹_› (hother _)
      · rfl
    obtain rfl := AliasBook.recalls_pure.mp h
    obtain ⟨items, source, joins, orderBy⟩ := statement
    obtain rfl := hnone
    exact ⟨[], rfl, hcolumns ▸ .nil⟩

section Whole

omit hbook

variable {whole : JoinTree T C} {top : Operand} (hknows : names.Knows specs)
  (hplan : plan.Laid .parent whole [] ⟨0, 0⟩ plan.parts.mark top) (hspecs : whole.specs ⊆ specs)
  (hroot : plan.root = top.select)

include hknows hplan hspecs hroot

/-- From any book on that was only asked for aliases, the query is written with the book that it
leaves behind, and ordered by columns that have aliases there. -/
theorem exists_written {before : AliasBook T C} (hbefore : before.Issued names plan) :
    ∃ result after, (query names plan).on before = (.ok result, after) ∧
      after.Issued names plan ∧ result.Written names plan after plan.root ∧
      List.Forall₂ (fun item column => ∃ name, item = ⟨.aliasRef name, .ascending⟩ ∧
        after.find? (.column column) = some name) result.orderBy plan.orderedBy := by
  obtain ⟨result, after, _, hquery, -⟩ :=
    exists_query_eq hknows hplan hspecs hroot hbefore.toSound
  obtain ⟨hafter, hrecalls⟩ := AliasBook.recalls_of_on (asks_query names plan) hbefore hquery
  obtain ⟨statement, hstatement, hordered⟩ := AliasBook.recalls_bind hafter
    (asks_statement names plan plan.root) (asks_ordered names plan) hrecalls
  rw [hroot] at hstatement
  obtain ⟨hwritten, hnone⟩ := written_of_recalls hafter hknows hplan hspecs
    (plan.incoming_nil specs _) hstatement
  obtain ⟨orderBy, rfl, horder⟩ := orderBy_of_recalls hafter hnone hordered
  exact ⟨_, after, hquery, hafter, hroot ▸ hwritten.withOrder orderBy, horder⟩

end Whole

end Lowering

end FlatAggregate
