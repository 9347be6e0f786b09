import FlatAggregate.Proofs.Lowering.Statements

/-!
# The meaning of queries

The query of an assembled draft gives the rows of its plan. Lowering starts with an empty book; as
all its questions settle, it gives the statement that it would give with a settled book after it,
and that one has the rows of the outermost select. The order of the query only permutes them.
-/

namespace FlatAggregate

variable {T C V : Type} [DecidableEq T] [DecidableEq C]

theorem OrderItem.mapM_name? {names : List String} {columns : List ColumnId}
    {label : ColumnId → String} (order : SortOrder)
    (h : ∀ column ∈ columns, names.count (label column) = 1) :
    (columns.map fun column => (⟨.aliasRef (label column), order⟩ : OrderItem)).mapM (name? names) =
      some (columns.map fun column => (label column, order)) := by
  induction columns with
  | nil => rfl
  | cons column columns ih =>
      have hrest := ih fun other ho => h other (List.mem_cons_of_mem _ ho)
      have hname : name? names ⟨.aliasRef (label column), order⟩ = some (label column, order) :=
        if_pos (h column List.mem_cons_self)
      simp [hname, hrest]

namespace Lowering

open Aliasing

variable {names : NameSource T C} {plan : Plan T C} {select : SelectId} {columns : List ColumnId}

section Settling

variable (hselects : ∀ select, select < plan.selects.size →
  Finds plan (.select select) (Aliasing.select names plan select))

theorem settles_tableSource (h : Settles plan (Aliasing.select names plan select))
    (scan : TableScan T) : Settles plan (tableSource names plan select scan) :=
  h.bind fun _ => (settles_lift _).bind fun _ => (settles_lift _).bind fun _ => settles_pure _

theorem settles_selectItems (hnamed : ∀ c ∈ columns, plan.Named names c) (scope : Scope) :
    Settles plan (selectItems names plan scope columns) := by
  refine settles_mapM fun c hc => ?_
  have hgiven : Settles plan (do
      let expr ← liftM (plan.expression scope c)
      return (⟨expr, some (← Aliasing.column names plan c)⟩ : SelectItem) :
        Aliasing T C SelectItem) :=
    (settles_lift _).bind fun _ => (settles_column (hnamed c hc)).bind fun _ => settles_pure _
  split
  · exact settles_pure _
  · exact hgiven

theorem settles_subquerySource (h : Settles plan (Aliasing.select names plan select))
    (hnamed : ∀ c ∈ plan.columnsOf select, plan.Named names c) (query : Statement) :
    Settles plan (subquerySource names plan select query) :=
  h.bind fun _ => (settles_mapM fun c hc => (settles_column (hnamed c hc)).bind fun _ =>
    settles_pure _).bind fun _ => settles_pure _

theorem settles_tableLevel (hnamed : ∀ c ∈ columns, plan.Named names c)
    (source : Source × Scope) : Settles plan (tableLevel names plan columns source) :=
  (settles_selectItems hnamed _).bind fun _ => settles_pure _

theorem settles_joinLevel {join : PlanJoin} (hnamed : ∀ c ∈ join.columns, plan.Named names c)
    (parent child : Source × Scope) : Settles plan (joinLevel names plan join parent child) :=
  (settles_lift _).bind fun _ => (settles_selectItems hnamed _).bind fun _ => settles_pure _

variable {specs : List (TableSpec T C)} {side : Side} {tree : JoinTree T C}
  {incoming : List ColumnId} {first last : Mark} {operand : Operand}

include hselects

theorem settles_queriedSource (hknows : names.Knows specs)
    (h : plan.Laid side tree incoming first last operand) (hspecs : tree.specs ⊆ specs)
    (hincoming : plan.Incoming specs first incoming)
    (hstatement : Settles plan (statement names plan operand.select)) :
    Settles plan (queriedSource names plan operand.select) := by
  have hselect := settles_select (hselects _ h.select_lt_size)
  have hnamed : ∀ c ∈ plan.columnsOf operand.select, plan.Named names c :=
    h.offers.1 ▸ h.named hknows hspecs hincoming
  exact hstatement.bind fun query => settles_subquerySource hselect hnamed query

theorem settles_parentSource (hknows : names.Knows specs)
    (h : plan.Laid .parent tree incoming first last operand) (hspecs : tree.specs ⊆ specs)
    (hincoming : plan.Incoming specs first incoming)
    (hstatement : Settles plan (statement names plan operand.select)) :
    Settles plan (parentSource names plan operand.select) := by
  rw [parentSource]
  split
  · exact settles_tableSource (settles_select (hselects _ h.select_lt_size)) _
  · exact settles_queriedSource hselects hknows h hspecs hincoming hstatement

theorem settles_statement (hknows : names.Knows specs)
    (h : plan.Laid side tree incoming first last operand) (hspecs : tree.specs ⊆ specs)
    (hincoming : plan.Incoming specs first incoming) :
    Settles plan (statement names plan operand.select) := by
  have hnamed := h.named hknows hspecs hincoming
  induction h with
  | scan hscan =>
      have hselect := settles_select (hselects _ (Array.getElem?_eq_some_iff.mp hscan.select).1)
      rw [TableScan.operand, statement_scan names hscan]
      exact (settles_tableSource hselect _).bind (settles_tableLevel hnamed)
  | view hscan hview hrowNumber =>
      have hselect := settles_select (hselects _ (Array.getElem?_eq_some_iff.mp hscan.select).1)
      rw [TableScan.viewOperand, statement_view names hscan hview]
      exact (settles_tableSource hselect _).bind (settles_tableLevel hnamed)
  | @join side left right incoming shown first middle last next parent child multiplicity owner join
      hparent hid hchild hjoin ihp ihc =>
      have hsides := List.append_subset.mp hspecs
      have hincoming' := hparent.incoming_id hsides.1 hincoming
      have hstatement := ihp hsides.1 hincoming (hparent.named hknows hsides.1 hincoming)
      have hstatement' := ihc hsides.2 hincoming' (hchild.named hknows hsides.2 hincoming')
      rw [PlanJoin.operand, statement_join names hparent hchild hjoin]
      refine (settles_parentSource hselects hknows hparent hsides.1 hincoming hstatement).bind
        fun x => ?_
      refine (settles_queriedSource hselects hknows hchild hsides.2 hincoming' hstatement').bind
        fun y => ?_
      exact settles_joinLevel hnamed x y

end Settling

section Whole

variable {specs : List (TableSpec T C)} {whole : JoinTree T C} {top : Operand}
  (hknows : names.Knows specs) (hplan : plan.Laid .parent whole [] ⟨0, 0⟩ plan.parts.mark top)
  (hspecs : whole.specs ⊆ specs) (hroot : plan.root = top.select)

include hknows hplan hspecs

theorem finds_select (h : select < plan.selects.size) :
    Finds plan (.select select) (Aliasing.select names plan select) := by
  have hselect := Array.getElem?_eq_getElem h
  cases hkind : plan.selects[select] with
  | scan scan =>
      rw [hkind] at hselect
      have hscanAt : plan.scanAt select = some scan := by rw [Plan.scanAt, hselect]
      obtain ⟨spec, hspec, _, mark, _, -, hscan, -⟩ := hplan.exists_hasScan_of_scanAt hscanAt
      obtain ⟨name, hname⟩ := hknows.tableName spec (hspecs hspec)
      exact finds_select_scan hselect (hscan.table.symm ▸ hname)
  | view table rowNumber =>
      rw [hkind] at hselect
      exact finds_select_view hselect
  | join join =>
      rw [hkind] at hselect
      exact finds_select_join hselect

include hroot

omit [DecidableEq T] [DecidableEq C] in
theorem named_root : ∀ c ∈ plan.columnsOf plan.root, plan.Named names c := by
  rw [hroot, hplan.offers.1]
  exact hplan.named hknows hspecs (plan.incoming_nil specs _)

theorem settles_query : Settles plan (query names plan) := by
  have hstatement := settles_statement (fun _ => finds_select hknows hplan hspecs) hknows hplan
    hspecs (plan.incoming_nil specs _)
  have hnamed := named_root hknows hplan hspecs hroot
  rw [query, hroot]
  refine hstatement.bind fun result => ?_
  split
  · rename_i join hjoin
    refine (settles_mapM fun c hc => ?_).bind fun _ => settles_pure _
    refine (settles_column (hnamed c ?_)).bind fun _ => settles_pure _
    rw [hroot, hplan.offers.1]
    exact hplan.ownColumns_subset hjoin (List.mem_append_left _ hc)
  · exact settles_pure _

variable {book : AliasBook T C} (hbook : book.Settled names plan)

include hbook

/-- With a settled book a query is its statement, ordered by columns that it shows. -/
theorem on_query_of_statement {result : Statement}
    (hresult : (statement names plan plan.root).on book = (.ok result, book))
    (horder : result.orderBy = []) :
    ∃ keys ⊆ plan.columnsOf plan.root, (query names plan).on book =
      (.ok { result with
        orderBy := keys.map fun column => ⟨.aliasRef (book.label column), .ascending⟩ }, book) := by
  have hnamed := named_root hknows hplan hspecs hroot
  rw [query, on_bind_ok hresult]
  split
  · rename_i join hjoin
    have hkeys : join.identity ++ [join.rowNumber] ⊆ plan.columnsOf plan.root := fun c hc => by
      rw [hroot] at hjoin ⊢
      exact hplan.offers.1 ▸ hplan.ownColumns_subset hjoin (List.mem_append_left _ hc)
    have hitems : ((join.identity ++ [join.rowNumber]).mapM fun column => do
          return (⟨.aliasRef (← Aliasing.column names plan column), .ascending⟩ :
            OrderItem)).on book =
        (.ok ((join.identity ++ [join.rowNumber]).map fun column =>
          ⟨.aliasRef (book.label column), .ascending⟩), book) :=
      on_mapM_eq fun c hc => on_bind_ok (hbook.on_column (hnamed c (hkeys hc)))
    exact ⟨_, hkeys, by rw [on_bind_ok hitems, on_pure]⟩
  · obtain ⟨items, source, joins, _⟩ := result
    obtain rfl := horder
    exact ⟨[], List.nil_subset _, on_pure _ _⟩

variable [Domain V] (htokens : plan.TokensDistinct) (sql : SqlDatabase V)

include htokens

/-- With a settled book the query has the rows of the outermost select, in some order. -/
theorem on_query : ∃ (result : Statement) (rows : List (List (Option V))),
    (query names plan).on book = (.ok result, book) ∧
    result.eval sql = some ⟨(plan.columnsOf plan.root).map book.label, rows⟩ ∧
    rows.Perm ((plan.rows (plan.database names sql) plan.root).map
      (plan.reads (plan.columnsOf plan.root))) := by
  have hnamed := named_root hknows hplan hspecs hroot
  have hcolumns : plan.columnsOf plan.root = top.columns := hroot ▸ hplan.offers.1
  have hfaithful : Faithful names plan book sql top.select top.columns :=
    faithful hbook hknows htokens hplan hspecs (plan.incoming_nil specs _)
  obtain ⟨result, hresult, horder, heval⟩ := hfaithful
  rw [← hcolumns, ← hroot] at heval
  obtain ⟨keys, hkeys, hquery⟩ :=
    on_query_of_statement hknows hplan hspecs hroot hbook (hroot ▸ hresult) horder
  have hlabels := hbook.nodup_labels htokens hnamed (hcolumns ▸ hplan.nodup_canonical)
  have hnames := OrderItem.mapM_name? .ascending fun c hc =>
    List.count_eq_one_of_mem hlabels (List.mem_map_of_mem (hkeys hc))
  exact ⟨_, _, hquery, heval _ _ hnames, List.mergeSort_perm _ _⟩

omit hbook in
/-- From any sound book on, the query gives the rows of the outermost select by the aliases of its
columns, in whatever order and however often one asks for these afterwards. -/
theorem exists_query {before : AliasBook T C} (hbefore : before.Sound plan) :
    ∃ (statement : Statement) (book : AliasBook T C) (label : ColumnId → String)
      (rows : List (List (Option V))),
      (query names plan).on before = (.ok statement, book) ∧
      (∀ asked : List ColumnId, asked ⊆ plan.columnsOf plan.root →
        ((asked.mapM (Aliasing.column names plan)).on book).1 = .ok (asked.map label)) ∧
      statement.eval sql = some ⟨(plan.columnsOf plan.root).map label, rows⟩ ∧
      ((plan.columnsOf plan.root).map label).Nodup ∧
      rows.Perm ((plan.rows (plan.database names sql) plan.root).map
        (plan.reads (plan.columnsOf plan.root))) := by
  have hnamed := named_root hknows hplan hspecs hroot
  have hselects : ∀ select, select < plan.selects.size →
      Finds plan (.select select) (Aliasing.select names plan select) :=
    fun _ => finds_select hknows hplan hspecs
  obtain ⟨hsound, -, hagain⟩ := settles_query hknows hplan hspecs hroot before hbefore
  cases hrun : (query names plan).on before with
  | mk answer book =>
    rw [hrun] at hsound hagain
    -- every settled book after the query gives the same statement, and with it the same labels
    have hlater : ∀ later : AliasBook T C, later.Settled names plan → book.Extends later →
        ∃ statement rows, answer = .ok statement ∧
          statement.eval sql = some ⟨(plan.columnsOf plan.root).map later.label, rows⟩ ∧
          rows.Perm ((plan.rows (plan.database names sql) plan.root).map
            (plan.reads (plan.columnsOf plan.root))) := by
      intro later hsettled hextends
      obtain ⟨statement, rows, hstatement, heval, hperm⟩ :=
        on_query hknows hplan hspecs hroot hsettled htokens sql
      exact ⟨statement, rows, congrArg Prod.fst ((hagain later hextends).symm.trans hstatement),
        heval, hperm⟩
    obtain ⟨later, hsettled, hextends⟩ := hsound.exists_settled hselects
    obtain ⟨statement, rows, rfl, heval, hperm⟩ := hlater later hsettled hextends
    refine ⟨statement, book, later.label, rows, rfl, fun asked hasked => ?_, heval, ?_, hperm⟩
    · obtain ⟨hsound', hextends', hagain'⟩ :=
        settles_mapM (fun c hc => settles_column (hnamed c (hasked hc))) book hsound
      obtain ⟨last, hlast, hextends''⟩ := hsound'.exists_settled hselects
      obtain ⟨statement', rows', hanswer, heval', -⟩ :=
        hlater last hlast (hextends'.trans hextends'')
      obtain rfl := Except.ok.inj hanswer
      have hnames := (SqlResult.mk.inj (Option.some.inj (heval.symm.trans heval'))).1
      have hasks := on_mapM_eq fun c hc => hlast.on_column (hnamed c (hasked hc))
      rw [hagain' last hextends''] at hasks
      rw [congrArg Prod.fst hasks]
      exact congrArg _ (List.map_congr_left fun c hc =>
        (List.map_inj_left.mp hnames c (hasked hc)).symm)
    · refine hsettled.nodup_labels htokens hnamed ?_
      rw [hroot, hplan.offers.1]
      exact hplan.nodup_canonical

end Whole

end Lowering

namespace Draft

variable [ToString T] [Domain V] {root : TableSpec T C} {additions : List (Addition T C)}
  {draft : Draft T C} {plan : Plan T C} {names : NameSource T C}

/-- The query of an assembled aggregate gives the rows of its plan. If the tokens of the tables are
distinct and the name source knows the tables, then, whatever the settings and whatever the tables
contain, the query has a statement and the statement a result: its columns bear the aliases for
which one gets asked afterwards, and read by these names its rows are the rows of the outermost
select. -/
theorem eval_query (h : assemble root additions = .ok draft) (hplan : draft.plan = .ok plan)
    (htokens : ((root :: additions.map Addition.spec).flatMap TableSpec.tokens).Nodup)
    (hknows : names.Knows (root :: additions.map Addition.spec)) (settings : Settings)
    (sql : SqlDatabase V) :
    ∃ (statement : Statement) (book : AliasBook T C) (label : ColumnId → String)
      (result : SqlResult V),
      (Lowering.query names plan).on { settings } = (.ok statement, book) ∧
      (∀ asked : List ColumnId, asked ⊆ plan.columnsOf plan.root →
        ((asked.mapM (Aliasing.column names plan)).on book).1 = .ok (asked.map label)) ∧
      statement.eval sql = some result ∧
      result.names = (plan.columnsOf plan.root).map label ∧ result.names.Nodup ∧
      (result.rows.map fun row => (plan.columnsOf plan.root).map fun column =>
        SqlResult.valueOf result.names row (label column)).Perm
          ((plan.rows (plan.database names sql) plan.root).map
            (plan.reads (plan.columnsOf plan.root))) := by
  obtain ⟨top, hlaid, hroot, -, -⟩ := laid_of_assemble h hplan
  have hdistinct := tokensDistinct_of_assemble h hplan htokens
  obtain ⟨statement, book, label, rows, hstatement, hasked, heval, hlabels, hperm⟩ :=
    Lowering.exists_query hknows hlaid (specs_of_assemble h).subset hroot hdistinct sql
      (AliasBook.sound_empty plan settings)
  refine ⟨statement, book, label, _, hstatement, hasked, heval, rfl, hlabels, ?_⟩
  refine (hperm.map _).trans (.of_eq ?_)
  rw [List.map_map]
  refine List.map_congr_left fun tuple _ => ?_
  exact List.map_congr_left fun c hc => SqlResult.valueOf_map hlabels hc

/-- A root with a child and a grandchild, and a second child with a key. -/
theorem eval_query_siblings :
    let root : TableSpec Nat Nat := { table := 0, id := some 10, columns := [11] }
    let additions : List (Addition Nat Nat) :=
      [⟨0, .multiple, { table := 1, id := some 20 }⟩, ⟨1, .single, { table := 2, columns := [30] }⟩,
        ⟨0, .multiple, { table := 3, key := some 40 }⟩]
    let names : NameSource Nat Nat := .ofText
    let sql : SqlDatabase Int := fun table =>
      if table = "0" then [fun _ => some 1, fun _ => some 2] else [fun _ => some 1, fun _ => none]
    ∃ (draft : Draft Nat Nat) (plan : Plan Nat Nat), assemble root additions = .ok draft ∧
      draft.plan = .ok plan ∧
      ((root :: additions.map Addition.spec).flatMap TableSpec.tokens).Nodup ∧
      names.Knows (root :: additions.map Addition.spec) ∧
      ∃ (statement : Statement) (book : AliasBook Nat Nat) (label : ColumnId → String)
        (result : SqlResult Int),
        (Lowering.query names plan).on { settings := {} } = (.ok statement, book) ∧
        (∀ asked : List ColumnId, asked ⊆ plan.columnsOf plan.root →
          ((asked.mapM (Aliasing.column names plan)).on book).1 = .ok (asked.map label)) ∧
        statement.eval sql = some result ∧
        result.names = (plan.columnsOf plan.root).map label ∧ result.names.Nodup ∧
        (result.rows.map fun row => (plan.columnsOf plan.root).map fun column =>
          SqlResult.valueOf result.names row (label column)).Perm
            ((plan.rows (plan.database names sql) plan.root).map
              (plan.reads (plan.columnsOf plan.root))) := by
  intro root additions names sql
  obtain ⟨draft, h⟩ : ∃ draft, assemble root additions = .ok draft := ⟨_, rfl⟩
  obtain ⟨-, plan, hplan⟩ := plan_of_assemble h
  have htokens : ((root :: additions.map Addition.spec).flatMap TableSpec.tokens).Nodup := by
    decide
  have hknows : names.Knows (root :: additions.map Addition.spec) :=
    ⟨fun _ _ => ⟨_, rfl⟩, fun _ _ _ _ => ⟨_, rfl⟩⟩
  exact ⟨draft, plan, h, hplan, htokens, hknows, eval_query h hplan htokens hknows {} sql⟩

end Draft

end FlatAggregate
