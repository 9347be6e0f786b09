import FlatAggregate.Proofs.Lowering.Joins
import FlatAggregate.Proofs.Lowering.Tables

/-!
# The statements of selects

With a settled book, every select of a built plan has a statement, and the statement has the rows of
the select under the labels of its columns. This is an induction over the layout of the plan: a
scan and a view read a table, and a join reads the statements of its sides as inline queries
(`Lowering.statement_scan`, `statement_view` and `statement_join` say so of the programs).

The programs for the levels are named here: `tableLevel` and `joinLevel` write a level over its
sources, `queriedSource` and `parentSource` give the sources of a join.
-/

namespace FlatAggregate

variable {T C V : Type} [DecidableEq T] [DecidableEq C] [Domain V]

namespace Lowering

section Programs

variable (names : NameSource T C) (plan : Plan T C)

def tableLevel (columns : List ColumnId) (source : Source × Scope) : Aliasing T C Statement := do
  return ⟨← selectItems names plan source.2 columns, source.1, [], []⟩

def joinLevel (join : PlanJoin) (parent child : Source × Scope) : Aliasing T C Statement := do
  let conditions ← liftM (join.conditions.mapM (condition plan (parent.2 ++ child.2)))
  return ⟨← selectItems names plan (parent.2 ++ child.2) join.columns, parent.1,
    [⟨child.1, conditions, .fullOuter⟩], []⟩

def queriedSource (select : SelectId) : Aliasing T C (Source × Scope) := do
  subquerySource names plan select (← statement names plan select)

/-- The parent side of a join: an inline query, unless it is a bare table. -/
def parentSource (select : SelectId) : Aliasing T C (Source × Scope) :=
  match plan.scanAt select with
  | some scan => tableSource names plan select scan
  | none => queriedSource names plan select

variable {plan} {side : Side} {spec : TableSpec T C} {left right : JoinTree T C}
  {incoming shown : List ColumnId} {first middle last : Mark} {next : Nat} {scan : TableScan T}
  {parent child : Operand} {multiplicity : Multiplicity} {join : PlanJoin}

omit [Domain V]

theorem statement_scan (hscan : plan.HasScan spec incoming first next scan) :
    statement names plan first.select =
      tableSource names plan first.select scan >>= tableLevel names plan scan.allColumns := by
  rw [statement, hscan.select]
  rfl

theorem statement_view (hscan : plan.HasScan spec incoming first next scan)
    (hview : plan.selects[first.select + 1]? = some (.view first.select next)) :
    statement names plan (first.select + 1) =
      tableSource names plan first.select scan >>=
        tableLevel names plan (scan.allColumns ++ [next]) := by
  rw [statement, hview]
  simp only [hscan.scanAt]
  rfl

theorem statement_join (hparent : plan.Laid .parent left incoming first middle parent)
    (hchild : plan.Laid .child right parent.id middle last child)
    (hjoin : plan.HasJoin parent child multiplicity last next join shown) :
    statement names plan last.select =
      parentSource names plan parent.select >>= fun x =>
        queriedSource names plan child.select >>= fun y => joinLevel names plan join x y := by
  obtain ⟨hlt, hlt'⟩ := hparent.sides_lt hchild
  rw [statement, hjoin.select]
  simp only [earlier, hjoin.parent_eq, hjoin.child_eq, dif_pos hlt, dif_pos hlt']
  cases hscanAt : plan.scanAt parent.select <;>
    simp only [parentSource, hscanAt, queriedSource, joinLevel, bind_assoc]

theorem parentSource_table (hscan : plan.HasScan spec incoming first next scan) :
    parentSource names plan first.select = tableSource names plan first.select scan := by
  rw [parentSource, hscan.scanAt]

theorem parentSource_join (hjoin : plan.HasJoin parent child multiplicity last next join shown) :
    parentSource names plan last.select = queriedSource names plan last.select := by
  have hscanAt : plan.scanAt last.select = none := by rw [Plan.scanAt, hjoin.select]
  rw [parentSource, hscanAt]

end Programs

variable {names : NameSource T C} {plan : Plan T C} {book : AliasBook T C} {sql : SqlDatabase V}

/-- A select has a statement, and the statement has the rows of the select, in the order that it is
given. -/
def Faithful (names : NameSource T C) (plan : Plan T C) (book : AliasBook T C)
    (sql : SqlDatabase V) (select : SelectId) (columns : List ColumnId) : Prop :=
  ∃ result : Statement, (statement names plan select).on book = (.ok result, book) ∧
    result.orderBy = [] ∧
    ∀ orderBy order, orderBy.mapM (OrderItem.name? (columns.map book.label)) = some order →
      Statement.eval sql { result with orderBy } =
        some ⟨columns.map book.label,
          ((plan.rows (plan.database names sql) select).map (plan.reads columns)).mergeSort
            (SqlResult.mayPrecede (columns.map book.label) order)⟩

theorem Faithful.exists_eval {select : SelectId} {columns : List ColumnId}
    (h : Faithful names plan book sql select columns) :
    ∃ result : Statement, (statement names plan select).on book = (.ok result, book) ∧
      result.eval sql = some ⟨columns.map book.label,
        (plan.rows (plan.database names sql) select).map (plan.reads columns)⟩ := by
  obtain ⟨⟨items, source, joins, _⟩, hresult, rfl, heval⟩ := h
  have hunordered := heval [] [] rfl
  rw [SqlResult.mergeSort_nil] at hunordered
  exact ⟨_, hresult, hunordered⟩

variable (hbook : book.Settled names plan)

include hbook

section Tables

variable {specs : List (TableSpec T C)} {spec : TableSpec T C} {incoming : List ColumnId}
  {mark : Mark} {next : Nat} {scan : TableScan T} (hknows : names.Knows specs)
  (hspec : spec ∈ specs)
  (hincoming : plan.Incoming specs mark incoming)
  (hscan : plan.HasScan spec incoming mark next scan)

include hknows hspec hincoming hscan

theorem faithful_scan : Faithful names plan book sql mark.select scan.allColumns := by
  obtain ⟨source, view, hsource, heval, -, hview⟩ :=
    on_tableSource hbook hknows hspec hincoming hscan sql
  have hgives : ∀ c ∈ scan.allColumns, ∃ expr, plan.expression view.scope c = .ok expr ∧
      expr.Gives plan view.level (Plan.scanRows (plan.database names sql) scan) c := fun c hc =>
    hscan.gives_stored hview hc fun position tuple final htuple hfinal => by
      rw [Option.some.inj (htuple.symm.trans hfinal)]
  obtain ⟨items, hitems, hall⟩ := on_selectItems hbook hview.aliased_scope
    (fun c hc => hscan.named hknows hspec hincoming hc) hgives
  refine ⟨⟨items, source, [], []⟩, ?_, rfl, fun orderBy order horder => ?_⟩
  · rw [statement_scan names hscan, Aliasing.on_bind_ok hsource, tableLevel,
      Aliasing.on_bind_ok hitems, Aliasing.on_pure]
  · rw [Plan.rows_scan hscan.select]
    exact Statement.eval_of_gives heval rfl hall hview.stands.length_eq horder

theorem faithful_view
    (hview : plan.selects[mark.select + 1]? = some (.view mark.select next))
    (hrowNumber : plan.columns[next]? = some (.rowNumber scan.foreignKeys)) :
    Faithful names plan book sql (mark.select + 1) (scan.allColumns ++ [next]) := by
  obtain ⟨source, view, hsource, heval, -, hpresents⟩ :=
    on_tableSource hbook hknows hspec hincoming hscan sql
  have hrows : plan.rows (plan.database names sql) (mark.select + 1) =
      plan.compute [next] (Plan.scanRows (plan.database names sql) scan) := by
    rw [Plan.rows_view hview (Nat.lt_succ_self _), Plan.rows_scan hscan.select]
  have hgives : ∀ c ∈ scan.allColumns ++ [next], ∃ expr, plan.expression view.scope c = .ok expr ∧
      expr.Gives plan view.level
        (plan.compute [next] (Plan.scanRows (plan.database names sql) scan)) c := by
    intro c hc
    rcases List.mem_append.mp hc with hc | hc
    · exact hscan.gives_stored hpresents hc fun position tuple final htuple hfinal =>
        hscan.read_compute hc htuple hfinal
    · exact List.mem_singleton.mp hc ▸ hscan.gives_rowNumber hpresents hrowNumber
  have hnamed : ∀ c ∈ scan.allColumns ++ [next], plan.Named names c := by
    intro c hc
    rcases List.mem_append.mp hc with hc | hc
    · exact hscan.named hknows hspec hincoming hc
    · exact List.mem_singleton.mp hc ▸ .rowNumber hrowNumber
  obtain ⟨items, hitems, hall⟩ := on_selectItems hbook hpresents.aliased_scope hnamed hgives
  refine ⟨⟨items, source, [], []⟩, ?_, rfl, fun orderBy order horder => ?_⟩
  · rw [statement_view names hscan hview, Aliasing.on_bind_ok hsource, tableLevel,
      Aliasing.on_bind_ok hitems, Aliasing.on_pure]
  · rw [hrows]
    refine Statement.eval_of_gives heval rfl hall ?_ horder
    rw [Plan.compute, List.length_mapIdx]
    exact hpresents.stands.length_eq

end Tables

section Operands

variable {specs : List (TableSpec T C)} {side : Side} {tree left right : JoinTree T C}
  {incoming shown : List ColumnId} {first middle last : Mark} {next : Nat}
  {operand parent child : Operand} {multiplicity : Multiplicity} {join : PlanJoin}
  (hknows : names.Knows specs) (htokens : plan.TokensDistinct)

include hknows htokens

theorem on_queried (h : plan.Laid side tree incoming first last operand)
    (hspecs : tree.specs ⊆ specs)
    (hincoming : plan.Incoming specs first incoming)
    (hfaithful : Faithful names plan book sql operand.select operand.columns) :
    ∃ (source : Source) (view : SourceView V),
      (queriedSource names plan operand.select).on book = (.ok (source, view.scope), book) ∧
      source.eval sql = some view.level ∧ view.aliasName = book.aliasAt (.select operand.select) ∧
      view.Presents plan book.label operand.columns
        (plan.rows (plan.database names sql) operand.select) := by
  obtain ⟨query, hquery, heval⟩ := hfaithful.exists_eval
  have hnamed := h.named hknows hspecs hincoming
  obtain ⟨source, view, hsource, hview⟩ := on_subquerySource hbook sql h.offers.1 h.select_lt_size
    hnamed (hbook.nodup_labels htokens hnamed h.nodup_canonical)
    (fun c hc => h.not_literal (List.mem_append_right _ hc)) heval
  refine ⟨source, view, ?_, hview⟩
  rw [queriedSource, Aliasing.on_bind_ok hquery, hsource]

/-- The parent side of a join is a bare table or an inline query. -/
theorem on_parent (h : plan.Laid .parent tree incoming first last operand)
    (hspecs : tree.specs ⊆ specs)
    (hincoming : plan.Incoming specs first incoming)
    (hfaithful : Faithful names plan book sql operand.select operand.columns) :
    ∃ (source : Source) (view : SourceView V),
      (parentSource names plan operand.select).on book = (.ok (source, view.scope), book) ∧
      source.eval sql = some view.level ∧ view.aliasName = book.aliasAt (.select operand.select) ∧
      view.Presents plan book.label operand.columns
        (plan.rows (plan.database names sql) operand.select) := by
  have hqueried := on_queried hbook hknows htokens h hspecs hincoming hfaithful
  cases h with
  | scan hscan =>
      obtain ⟨source, view, hsource, hview⟩ := on_tableSource hbook hknows
        (hspecs JoinTree.mem_specs_table) hincoming hscan sql
      rw [← Plan.rows_scan hscan.select] at hview
      exact ⟨source, view, (congrArg (Aliasing.on · book) (parentSource_table names hscan)).trans
        hsource, hview⟩
  | join hparent hid hchild hjoin =>
      obtain ⟨source, view, hsource, hview⟩ := hqueried
      exact ⟨source, view, (congrArg (Aliasing.on · book) (parentSource_join names hjoin)).trans
        hsource, hview⟩

theorem faithful_join {owner : T} (hparent : plan.Laid .parent left incoming first middle parent)
    (hid : parent.id ≠ []) (hchild : plan.Laid .child right parent.id middle last child)
    (hjoin : plan.HasJoin parent child multiplicity last next join shown)
    (hspecs : (JoinTree.join left right multiplicity owner).specs ⊆ specs)
    (hincoming : plan.Incoming specs first incoming)
    (hfaithful : Faithful names plan book sql parent.select parent.columns)
    (hfaithful' : Faithful names plan book sql child.select child.columns) :
    Faithful names plan book sql last.select join.columns := by
  have hlaid : plan.Laid .parent (.join left right multiplicity owner) incoming first
      ⟨last.select + 1, next⟩ (join.operand last.select) := .join hparent hid hchild hjoin
  have hnamed : ∀ c ∈ join.columns, plan.Named names c := hlaid.named hknows hspecs hincoming
  rw [JoinTree.specs, List.append_subset] at hspecs
  obtain ⟨source, leftView, hsource, heval, halias, hleft⟩ :=
    on_parent hbook hknows htokens hparent hspecs.1 hincoming hfaithful
  obtain ⟨joined, rightView, hjoined, heval', halias', hright⟩ :=
    on_queried hbook hknows htokens hchild hspecs.2 (hparent.incoming_id hspecs.1 hincoming)
      hfaithful'
  have hne : leftView.aliasName ≠ rightView.aliasName := by
    rw [halias, halias']
    exact hbook.label_select_ne hparent.select_lt_size hchild.select_lt_size
      (hparent.ownKey_select_ne hchild)
  obtain ⟨operations, level, hoperations, hlevel, hlength, hgives⟩ :=
    hjoin.exists_level hparent hchild hleft hright hne
  have haliased : ∀ entry ∈ leftView.scope ++ rightView.scope, entry.2.aliased → ∃ aliasName,
      entry.2.expr = .property aliasName (book.label entry.1) := fun entry hentry =>
    (List.mem_append.mp hentry).elim (hleft.aliased_scope entry) (hright.aliased_scope entry)
  obtain ⟨items, hitems, hall⟩ := on_selectItems hbook haliased hnamed hgives
  refine ⟨⟨items, source, [⟨joined, operations, .fullOuter⟩], []⟩, ?_, rfl,
    fun orderBy order horder => ?_⟩
  · rw [statement_join names hparent hchild hjoin, Aliasing.on_bind_ok hsource,
      Aliasing.on_bind_ok hjoined, joinLevel, hoperations, Aliasing.lift_ok_bind,
      Aliasing.on_bind_ok hitems, Aliasing.on_pure]
  · refine Statement.eval_of_gives heval ?_ hall hlength horder
    rw [Join.evalAll, heval']
    simp [hlevel, Join.evalAll]

/-- The statement of every select of a plan has the rows of the select. -/
theorem faithful (h : plan.Laid side tree incoming first last operand)
    (hspecs : tree.specs ⊆ specs)
    (hincoming : plan.Incoming specs first incoming) :
    Faithful names plan book sql operand.select operand.columns := by
  induction h with
  | scan hscan =>
      exact faithful_scan hbook hknows (hspecs JoinTree.mem_specs_table) hincoming hscan
  | view hscan hview hrowNumber =>
      exact faithful_view hbook hknows (hspecs JoinTree.mem_specs_table) hincoming hscan hview
        hrowNumber
  | @join side left right incoming shown first middle last next parent child multiplicity owner join
      hparent hid hchild hjoin ihp ihc =>
      have hsides := List.append_subset.mp hspecs
      exact faithful_join hbook hknows htokens hparent hid hchild hjoin hspecs hincoming
        (ihp hsides.1 hincoming) (ihc hsides.2 (hparent.incoming_id hsides.1 hincoming))

end Operands

end Lowering

end FlatAggregate
