import FlatAggregate.Proofs.Alias.Mirrors
import FlatAggregate.Proofs.Lowering.Programs
import FlatAggregate.Proofs.Lowering.Renaming
import FlatAggregate.Proofs.Plan.Assembled

/-!
# Lowering with two books

Lowered with two books that know all aliases asked for, a plan has one and the same statement but
for the spelling of aliases. This is an induction over the layout of the plan: at a join, the table
on the parent side has an alias other than that of the child, so no column name of a table is ever
taken for an alias (`Lowering.mirrors_parentSource`).
-/

namespace FlatAggregate

variable {T C : Type}

namespace Lowering

open Aliasing

variable [DecidableEq T] [DecidableEq C]

/-- The statements of a select with two books differ by the respelling. -/
def Mirrored (names : NameSource T C) (plan : Plan T C) (book other : AliasBook T C)
    (respell : String → String) (select : SelectId) : Prop :=
  Mirrors book other (Statement.rename respell) (fun _ => True) (statement names plan select)
    (statement names plan select)

variable {names : NameSource T C} {plan : Plan T C}
  {book other : AliasBook T C} {respell : String → String} (hbook : book.Issued names plan)
  (hother : other.Issued names plan) (hcarries : book.Carries respell other)

include hbook hother hcarries

section Sources

variable {queries : List String}

/-- A table is mirrored at a level where no inline query has its alias. -/
theorem mirrors_tableSource (select : SelectId) (scan : TableScan T)
    (h : ∀ aliasName, book.find? (.select select) = some aliasName → aliasName ∉ queries) :
    Mirrors book other (renameSource respell queries) (fun x => x.1.queryAlias? = none)
      (tableSource names plan select scan) (tableSource names plan select scan) := by
  have hrest : ∀ aliasName, Asks names plan (do
      let scope ← liftM (tableScope names plan aliasName scan.allColumns)
      return (Source.table (← liftM (names.tableName scan.table)) aliasName, scope)) := fun _ =>
    (Asks.lift _).bind fun _ => (Asks.lift _).bind fun _ => Asks.pure _
  refine (mirrors_select hbook hother hcarries select).bind hbook hother (Asks.select select)
    (Asks.select select) hrest hrest fun aliasName hfind => ?_
  refine mirrors_lift_bind (tableScope_rename names plan (h aliasName hfind) _) fun scope => ?_
  have hname : names.tableName scan.table = (names.tableName scan.table).map id := by
    cases names.tableName scan.table <;> rfl
  exact mirrors_lift_bind hname fun name => mirrors_pure (renameSource respell queries) rfl

theorem mirrors_subquerySource (select : SelectId) (query : Statement)
    (h : ∀ aliasName, book.find? (.select select) = some aliasName → aliasName ∈ queries) :
    Mirrors book other (renameSource respell queries)
      (fun x => x.1.queryAlias? = book.find? (.select select))
      (subquerySource names plan select query)
      (subquerySource names plan select (query.rename respell)) := by
  have hrest : ∀ (query : Statement) (aliasName : String), Asks names plan (do
      let scope ← (plan.columnsOf select).mapM (shownColumn names plan aliasName)
      return (Source.subquery query aliasName, scope)) := fun _ aliasName =>
    (Asks.mapM (asks_shownColumn names plan aliasName)).bind fun _ => Asks.pure _
  refine (mirrors_select hbook hother hcarries select).bind hbook hother (Asks.select select)
    (Asks.select select) (hrest query) (hrest _) fun aliasName hfind => ?_
  have hshown : ∀ column, Mirrors book other
      (fun entry => (entry.1, entry.2.rename respell queries)) (fun _ => True)
      (shownColumn names plan aliasName column)
      (shownColumn names plan (respell aliasName) column) := by
    intro column
    refine (mirrors_column hbook hother hcarries column).bind hbook hother (Asks.column column)
      (Asks.column column) (fun _ => Asks.pure _) (fun _ => Asks.pure _) fun name _ => ?_
    have hrename : Expr.rename respell queries (.property aliasName name) =
        .property (respell aliasName) (respell name) := by
      rw [Expr.rename, if_pos (h aliasName hfind)]
    rw [← hrename]
    exact mirrors_pure (fun entry : ColumnId × Exposure =>
      (entry.1, entry.2.rename respell queries)) trivial
  exact (mirrors_mapM hbook hother _ (asks_shownColumn names plan _)
    (asks_shownColumn names plan _) hshown).bind hbook hother
    (Asks.mapM (asks_shownColumn names plan _)) (Asks.mapM (asks_shownColumn names plan _))
    (fun _ => Asks.pure _) (fun _ => Asks.pure _)
    fun _ _ => mirrors_pure (renameSource respell queries) hfind.symm

theorem mirrors_selectItem (scope : Scope) (column : ColumnId) :
    Mirrors book other (SelectItem.rename respell queries) (fun _ => True)
      (selectItem names plan scope column)
      (selectItem names plan (scope.rename respell queries) column) := by
  have hnamed : Mirrors book other (SelectItem.rename respell queries) (fun _ => True)
      (do
        let expr ← liftM (plan.expression scope column)
        return ⟨expr, some (← Aliasing.column names plan column)⟩)
      (do
        let expr ← liftM (plan.expression (scope.rename respell queries) column)
        return ⟨expr, some (← Aliasing.column names plan column)⟩) := by
    refine mirrors_lift_bind (plan.expression_rename respell queries scope column) fun expr => ?_
    exact (mirrors_column hbook hother hcarries column).bind hbook hother (Asks.column column)
      (Asks.column column) (fun _ => Asks.pure _) (fun _ => Asks.pure _)
      fun name _ => mirrors_pure (SelectItem.rename respell queries) trivial
  rw [selectItem, selectItem, Scope.find?_rename]
  cases scope.find? (plan.canonical column) with
  | none => exact hnamed
  | some exposure =>
      obtain ⟨expr, aliased⟩ := exposure
      cases aliased with
      | true => exact mirrors_pure (SelectItem.rename respell queries) trivial
      | false => exact hnamed

theorem mirrors_selectItems (scope : Scope) (columns : List ColumnId) :
    Mirrors book other (List.map (SelectItem.rename respell queries)) (fun _ => True)
      (selectItems names plan scope columns)
      (selectItems names plan (scope.rename respell queries) columns) :=
  mirrors_mapM hbook hother _ (asks_selectItem names plan _) (asks_selectItem names plan _)
    (mirrors_selectItem hbook hother hcarries scope)

theorem mirrors_tableLevel (columns : List ColumnId) {source : Source × Scope}
    (h : source.1.queryAlias? = none) :
    Mirrors book other (Statement.rename respell) (fun _ => True)
      (tableLevel names plan columns source)
      (tableLevel names plan columns (renameSource respell [] source)) := by
  refine (mirrors_selectItems hbook hother hcarries source.2 columns).bind hbook hother
    (asks_selectItems names plan _ _) (asks_selectItems names plan _ _) (fun _ => Asks.pure _)
    (fun _ => Asks.pure _) fun items _ => ?_
  have hrename : Statement.rename respell ⟨items, source.1, [], []⟩ =
      ⟨items.map (SelectItem.rename respell []), source.1.rename respell, [], []⟩ := by
    simp only [Statement.rename, h, Join.renameAll, List.map_nil, List.filterMap_nil,
      Option.toList_none, List.append_nil]
  exact hrename ▸ mirrors_pure (Statement.rename respell) trivial

theorem mirrors_joinLevel (join : PlanJoin) {parent child : Source × Scope}
    (h : parent.1.queryAlias?.toList ++ child.1.queryAlias?.toList = queries) :
    Mirrors book other (Statement.rename respell) (fun _ => True)
      (joinLevel names plan join parent child)
      (joinLevel names plan join (renameSource respell queries parent)
        (renameSource respell queries child)) := by
  have hscope := Scope.rename_append respell queries parent.2 child.2
  rw [joinLevel, joinLevel, renameSource, renameSource, ← hscope]
  refine mirrors_lift_bind (mapM_map (condition_rename respell queries plan _) _)
    fun conditions => ?_
  refine (mirrors_selectItems hbook hother hcarries _ join.columns).bind hbook hother
    (asks_selectItems names plan _ _) (asks_selectItems names plan _ _) (fun _ => Asks.pure _)
    (fun _ => Asks.pure _) fun items _ => ?_
  exact rename_level respell h ▸ mirrors_pure (Statement.rename respell) trivial

theorem mirrors_queriedSource {select : SelectId}
    (hselect : Mirrored names plan book other respell select)
    (h : ∀ aliasName, book.find? (.select select) = some aliasName → aliasName ∈ queries) :
    Mirrors book other (renameSource respell queries)
      (fun x => x.1.queryAlias? = book.find? (.select select))
      (queriedSource names plan select) (queriedSource names plan select) :=
  hselect.bind hbook hother (asks_statement names plan select) (asks_statement names plan select)
    (asks_subquerySource names plan select) (asks_subquerySource names plan select)
    fun query _ => mirrors_subquerySource hbook hother hcarries select query h

end Sources

section Trees

variable {side : Side} {tree left right : JoinTree T C} {incoming shown : List ColumnId}
  {first middle last : Mark} {next : Nat} {operand parent child : Operand}
  {multiplicity : Multiplicity} {join : PlanJoin}

/-- The parent of a join is mirrored at the level of the join, where its table has an alias other
than that of the child. -/
theorem mirrors_parentSource (hparent : plan.Laid .parent left incoming first middle parent)
    (hchild : plan.Laid .child right parent.id middle last child)
    (hselect : Mirrored names plan book other respell parent.select) :
    ∃ queryAlias : Option String,
      Mirrors book other
        (renameSource respell (queryAlias.toList ++ (book.find? (.select child.select)).toList))
        (fun x => x.1.queryAlias? = queryAlias)
        (parentSource names plan parent.select) (parentSource names plan parent.select) := by
  have hne := hparent.ownKey_select_ne hchild
  cases hparent with
  | scan hscan =>
      refine ⟨none, ?_⟩
      rw [TableScan.operand, parentSource_table names hscan]
      refine mirrors_tableSource hbook hother hcarries _ _ fun aliasName hfind hmem => ?_
      have hfind' : book.find? (.select child.select) = some aliasName := by simpa using hmem
      exact hne (hbook.ownKey_eq _ _ aliasName hfind hfind')
  | join _ _ _ hjoin =>
      rw [PlanJoin.operand, parentSource_join names hjoin]
      refine ⟨_, mirrors_queriedSource hbook hother hcarries hselect fun aliasName hfind => ?_⟩
      rw [hfind]
      exact List.mem_append_left _ (List.mem_singleton_self _)

theorem mirrored_join (hparent : plan.Laid .parent left incoming first middle parent)
    (hchild : plan.Laid .child right parent.id middle last child)
    (hjoin : plan.HasJoin parent child multiplicity last next join shown)
    (hselect : Mirrored names plan book other respell parent.select)
    (hselect' : Mirrored names plan book other respell child.select) :
    Mirrored names plan book other respell last.select := by
  obtain ⟨queryAlias, hsource⟩ := mirrors_parentSource hbook hother hcarries hparent hchild hselect
  have hmem : ∀ aliasName, book.find? (.select child.select) = some aliasName →
      aliasName ∈ queryAlias.toList ++ (book.find? (.select child.select)).toList := by
    intro aliasName hfind
    rw [hfind]
    exact List.mem_append_right _ (List.mem_singleton_self _)
  have hrest : ∀ x, Asks names plan (queriedSource names plan child.select >>= fun y =>
      joinLevel names plan join x y) := fun x =>
    (asks_queriedSource names plan _).bind (asks_joinLevel names plan join x)
  rw [Mirrored, statement_join names hparent hchild hjoin]
  refine hsource.bind hbook hother (asks_parentSource names plan _)
    (asks_parentSource names plan _) hrest hrest fun x hx => ?_
  refine (mirrors_queriedSource hbook hother hcarries hselect' hmem).bind hbook hother
    (asks_queriedSource names plan _) (asks_queriedSource names plan _)
    (asks_joinLevel names plan join x) (asks_joinLevel names plan join _) fun y hy => ?_
  exact mirrors_joinLevel hbook hother hcarries join (by rw [hx, hy])

theorem mirrored (h : plan.Laid side tree incoming first last operand) :
    Mirrored names plan book other respell operand.select := by
  have htable : ∀ select scan columns, Mirrors book other (Statement.rename respell)
      (fun _ => True) (tableSource names plan select scan >>= tableLevel names plan columns)
      (tableSource names plan select scan >>= tableLevel names plan columns) := by
    intro select scan columns
    exact (mirrors_tableSource hbook hother hcarries select scan (by simp)).bind hbook hother
      (asks_tableSource names plan _ _) (asks_tableSource names plan _ _)
      (asks_tableLevel names plan _) (asks_tableLevel names plan _)
      fun x hx => mirrors_tableLevel hbook hother hcarries columns hx
  induction h with
  | scan hscan =>
      rw [Mirrored, TableScan.operand, statement_scan names hscan]
      exact htable _ _ _
  | view hscan hview =>
      rw [Mirrored, TableScan.viewOperand, statement_view names hscan hview]
      exact htable _ _ _
  | join hparent hid hchild hjoin ihp ihc =>
      exact mirrored_join hbook hother hcarries hparent hchild hjoin ihp ihc

theorem mirrors_ordered (result : Statement) :
    Mirrors book other (Statement.rename respell) (fun _ => True)
      (ordered names plan result) (ordered names plan (result.rename respell)) := by
  obtain ⟨items, source, joins, orderBy⟩ := result
  have hitem : ∀ column, Mirrors book other (OrderItem.rename respell
      (source.queryAlias?.toList ++ joins.filterMap (·.source.queryAlias?))) (fun _ => True)
      (orderItem names plan column) (orderItem names plan column) := fun column =>
    (mirrors_column hbook hother hcarries column).bind hbook hother (Asks.column column)
      (Asks.column column) (fun _ => Asks.pure _) (fun _ => Asks.pure _)
      fun _ _ => mirrors_pure (OrderItem.rename respell _) trivial
  rw [ordered, ordered]
  split
  · exact (mirrors_mapM hbook hother _ (asks_orderItem names plan) (asks_orderItem names plan)
      hitem).bind hbook hother (Asks.mapM (asks_orderItem names plan))
      (Asks.mapM (asks_orderItem names plan)) (fun _ => Asks.pure _) (fun _ => Asks.pure _)
      fun _ _ => mirrors_pure (Statement.rename respell) trivial
  · exact mirrors_pure (Statement.rename respell) trivial

theorem mirrors_query (h : plan.Laid side tree incoming first last operand)
    (hroot : plan.root = operand.select) :
    Mirrors book other (Statement.rename respell) (fun _ => True)
      (query names plan) (query names plan) := by
  have hstatement := mirrored hbook hother hcarries h
  rw [← hroot] at hstatement
  exact hstatement.bind hbook hother (asks_statement names plan _) (asks_statement names plan _)
    (asks_ordered names plan) (asks_ordered names plan)
    fun result _ => mirrors_ordered hbook hother hcarries result

end Trees

end Lowering

namespace Draft

variable [DecidableEq T] [DecidableEq C] [ToString T] {root : TableSpec T C}
  {additions : List (Addition T C)} {draft : Draft T C} {plan : Plan T C}

/-- The shape of a query depends neither on settings nor on what was asked before. Whatever two
books were made with and were asked for, the aliases of the first are carried to those of the second
by a permutation of texts, and every respelling that does so takes the one query to the other, be it
an error. -/
theorem query_rename (h : assemble root additions = .ok draft) (hplan : draft.plan = .ok plan)
    (names : NameSource T C) (settings settings' : Settings) (asked asked' : List (AliasKey T C)) :
    let first := (Lowering.query names plan).on
      (Aliasing.inTurn (Aliasing.aliasOf names plan) asked { settings }).2
    let second := (Lowering.query names plan).on
      (Aliasing.inTurn (Aliasing.aliasOf names plan) asked' { settings := settings' }).2
    (∃ respell : Equiv.Perm String, first.2.Carries respell second.2) ∧
      ∀ respell : String → String, first.2.Carries respell second.2 →
        second.1 = first.1.map (Statement.rename respell) := by
  intro first second
  obtain ⟨top, hlaid, hroot, -, -⟩ := laid_of_assemble h hplan
  have hasks := Lowering.asks_query names plan
  have hbefore : ∀ (settings : Settings) (asked : List (AliasKey T C)),
      (Aliasing.inTurn (Aliasing.aliasOf names plan) asked { settings }).2.Issued names plan :=
    fun settings asked =>
      (Aliasing.inTurn_leads Aliasing.Asks.ask asked (AliasBook.issued_empty _ _ settings)).issued
  have hfirst : first.2.Issued names plan := (hasks.leads (hbefore settings asked)).issued
  have hsecond : second.2.Issued names plan := (hasks.leads (hbefore settings' asked')).issued
  -- asked once more, both queries come out as before and leave their books as they are
  have hagain : (Lowering.query names plan).on first.2 = first :=
    hasks.again (hbefore settings asked) hfirst (.refl _)
  have hagain' : (Lowering.query names plan).on second.2 = second :=
    hasks.again (hbefore settings' asked') hsecond (.refl _)
  refine ⟨hfirst.exists_perm hsecond.toSound, fun respell hcarries => ?_⟩
  have hmirrors := Lowering.mirrors_query hfirst hsecond hcarries hlaid hroot
    (congrArg Prod.snd hagain) (congrArg Prod.snd hagain')
  rw [hagain, hagain'] at hmirrors
  exact hmirrors.1

/-- A root with two children, of which one has a child of its own. The second book has no hints and
was asked for aliases before, also for one of a literal. -/
theorem query_rename_siblings :
    let root : TableSpec Nat Nat := { table := 0, id := some 10, columns := [11] }
    let additions : List (Addition Nat Nat) :=
      [⟨0, .multiple, { table := 1, id := some 20 }⟩, ⟨1, .single, { table := 2, columns := [30] }⟩,
        ⟨0, .multiple, { table := 3, key := some 40 }⟩]
    let names : NameSource Nat Nat := .ofText
    let asked : List (AliasKey Nat Nat) := [.column 7, .column 2, .select 1, .token 11]
    ∃ (draft : Draft Nat Nat) (plan : Plan Nat Nat), assemble root additions = .ok draft ∧
      draft.plan = .ok plan ∧
      let first := (Lowering.query names plan).on
        (Aliasing.inTurn (Aliasing.aliasOf names plan) [] { settings := {} }).2
      let second := (Lowering.query names plan).on
        (Aliasing.inTurn (Aliasing.aliasOf names plan) asked { settings := { hints := false } }).2
      (∃ respell : Equiv.Perm String, first.2.Carries respell second.2) ∧
        ∀ respell : String → String, first.2.Carries respell second.2 →
          second.1 = first.1.map (Statement.rename respell) := by
  intro root additions names asked
  obtain ⟨draft, h⟩ : ∃ draft, assemble root additions = .ok draft := ⟨_, rfl⟩
  obtain ⟨-, plan, hplan⟩ := plan_of_assemble h
  exact ⟨draft, plan, h, hplan, query_rename h hplan names {} { hints := false } [] asked⟩

end Draft

end FlatAggregate
