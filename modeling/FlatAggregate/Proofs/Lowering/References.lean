import FlatAggregate.Proofs.Lowering.Queries
import FlatAggregate.Proofs.Statement.Resolution

/-!
# The references of queries

With a settled book every select of a built plan has a statement whose items bear the labels of the
columns of the select. The scope of a level lists what its sources show, and nothing else gets into
an expression; so if the tokens of the tables are distinct, and with them the labels of every level,
all references resolve. This is an induction over the layout of the plan, which carries what the
scope of a source lists (`Lowering.Listed`) from a select to the join above it.

`Lowering.Stated` says what is known of the statement of one select, and `Lowering.Queried` what is
known of the whole query.
-/

namespace FlatAggregate

variable {T C : Type}

theorem forall₂_of_mapM_eq_ok {E A B : Type} {f : A → Except E B} {items : List A}
    {results : List B} (h : items.mapM f = .ok results) :
    List.Forall₂ (fun result item => f item = .ok result) results items := by
  induction items generalizing results with
  | nil =>
      obtain rfl := Except.ok.inj h
      exact .nil
  | cons item items ih =>
      rw [List.mapM_cons] at h
      obtain ⟨result, hresult, h⟩ := exists_of_bind_eq_ok h
      obtain ⟨others, hothers, h⟩ := exists_of_bind_eq_ok h
      obtain rfl := Except.ok.inj h
      exact .cons hresult (ih hothers)

theorem mapM_eq_ok_of_forall₂ {E A B : Type} {f : A → Except E B} {items : List A}
    {results : List B} (h : List.Forall₂ (fun item result => f item = .ok result) items results) :
    items.mapM f = .ok results := by
  induction h with
  | nil => rfl
  | cons hhead _ ih =>
      rw [List.mapM_cons, hhead, ih]
      rfl

section Expressions

variable {plan : Plan T C} {scope : Scope} {resolves : String → String → ColumnId → Prop}

theorem Plan.standsFor_of_expression
    (hscope : ∀ entry ∈ scope, ∃ aliasName name, entry.2.expr = .property aliasName name ∧
      resolves aliasName name entry.1) {column : ColumnId} {expr : Expr}
    (h : plan.expression scope column = .ok expr) : expr.StandsFor plan resolves column := by
  induction column using Nat.strongRecOn generalizing expr with
  | ind column ih =>
    have hoperand : ∀ {key : ColumnId} {operand : Expr},
        earlier column (fun p _ => plan.expression scope p)
          (.error (.columnNotInScope (.column (plan.canonical column)))) key = .ok operand →
        operand.StandsFor plan resolves key := fun {key operand} hkey => by
      rw [earlier] at hkey
      split at hkey
      · exact ih key ‹_› hkey
      · cases hkey
    have hoperands : ∀ {keys : List ColumnId} {operands : List Expr},
        keys.mapM (earlier column (fun p _ => plan.expression scope p)
          (.error (.columnNotInScope (.column (plan.canonical column))))) = .ok operands →
        List.Forall₂ (Expr.StandsFor plan resolves) operands keys := fun hkeys =>
      (forall₂_of_mapM_eq_ok hkeys).imp fun _ _ hkey => hoperand hkey
    rw [expression] at h
    dsimp only at h
    split at h
    · rename_i exposure hfind
      obtain ⟨aliasName, name, hexpr, hresolves⟩ := hscope _ (Scope.mem_of_find? hfind)
      obtain rfl := Except.ok.inj h
      dsimp only at hexpr
      rw [hexpr]
      exact .property hresolves
    · split at h
      · obtain rfl := Except.ok.inj h
        exact .literal ‹_›
      · obtain ⟨left, hleft, h⟩ := exists_of_bind_eq_ok h
        obtain ⟨right, hright, h⟩ := exists_of_bind_eq_ok h
        obtain rfl := Except.ok.inj h
        exact .greatest ‹_› (hoperand hleft) (hoperand hright)
      · obtain ⟨keys, hkeys, h⟩ := exists_of_bind_eq_ok h
        obtain rfl := Except.ok.inj h
        exact .rowNumber ‹_› (hoperands hkeys)
      · obtain ⟨source, hsource, h⟩ := exists_of_bind_eq_ok h
        obtain ⟨keys, hkeys, h⟩ := exists_of_bind_eq_ok h
        obtain rfl := Except.ok.inj h
        exact .maxOver ‹_› (hoperand hsource) (hoperands hkeys)
      · cases h

theorem Lowering.standsFor_of_conditions
    (hscope : ∀ entry ∈ scope, ∃ aliasName name, entry.2.expr = .property aliasName name ∧
      resolves aliasName name entry.1) {conditions : List JoinCondition}
    {operations : List Operation} (h : conditions.mapM (condition plan scope) = .ok operations) :
    List.Forall₂ (Operation.StandsFor plan resolves) operations conditions := by
  refine (forall₂_of_mapM_eq_ok h).imp fun operation compared hoperation => ?_
  obtain ⟨left, hleft, hoperation⟩ := exists_of_bind_eq_ok hoperation
  obtain ⟨right, hright, hoperation⟩ := exists_of_bind_eq_ok hoperation
  exact ⟨left, right, (Except.ok.inj hoperation).symm, Plan.standsFor_of_expression hscope hleft,
    Plan.standsFor_of_expression hscope hright⟩

theorem Scope.shownBy_names {aliases : List String} (hnodup : aliases.Nodup)
    (hscope : ∀ entry ∈ scope, ∃ aliasName ∈ aliases, ∃ name,
      entry.2.expr = .property aliasName name) :
    scope.ShownBy (aliases.map fun aliasName => (aliasName, fun _ => true))
      (fun (_ : LevelRow Int) (_ : Tuple T Int) => False) := by
  intro entry hentry
  obtain ⟨aliasName, hmem, name, hexpr⟩ := hscope entry hentry
  refine ⟨aliasName, name, hexpr, ?_, fun _ _ h => h.elim⟩
  have hkeys : ((aliases.map fun a => (a, fun (_ : String) => true)).map Prod.fst).Nodup := by
    rw [List.map_map]
    exact (List.map_id aliases).symm ▸ hnodup
  rw [Sources.resolve, filter_eq_singleton hkeys (List.mem_map_of_mem hmem)]
  rfl

end Expressions

/-- A level lists the columns of a select, all of them named, under their labels. -/
def Statement.Lists (names : NameSource T C) (plan : Plan T C) (label : ColumnId → String)
    (level : Statement) : Prop :=
  ∃ select < plan.selects.size, (∀ column ∈ plan.columnsOf select, plan.Named names column) ∧
    level.items.map SelectItem.outputName =
      (plan.columnsOf select).map fun column => some (label column)

namespace Lowering

variable [DecidableEq T] [DecidableEq C]

/-- A select has a statement under a book, and what is known of the statement. -/
structure Stated (names : NameSource T C) (plan : Plan T C) (book : AliasBook T C)
    (select : SelectId) (columns : List ColumnId) (result : Statement) : Prop where
  on_eq : (statement names plan select).on book = (.ok result, book)
  outputNames : result.items.map SelectItem.outputName =
    columns.map fun column => some (book.label column)
  orderBy : result.orderBy = []
  levels : ∀ level ∈ result.levels, level.Lists names plan book.label
  resolved : plan.TokensDistinct → result.Resolved names plan select

structure Listed (names : NameSource T C) (plan : Plan T C) (book : AliasBook T C)
    (select : SelectId) (columns : List ColumnId) (source : Source) (scope : Scope) : Prop where
  aliasName : source.aliasName = book.aliasAt (.select select)
  columns_eq : scope.map Prod.fst = columns.map plan.canonical
  entries : ∀ entry ∈ scope, ∃ name, entry.2.expr = .property source.aliasName name ∧
    (entry.2.aliased → name = book.label entry.1) ∧
    (plan.TokensDistinct → source.Shows names plan select name entry.1)
  levels : ∀ level ∈ source.levels, level.Lists names plan book.label
  resolved : plan.TokensDistinct → source.Resolved names plan select

variable {names : NameSource T C} {plan : Plan T C} {book : AliasBook T C}
  {specs : List (TableSpec T C)}

section Sources

variable (hbook : book.Settled names plan)

include hbook

theorem listed_table {spec : TableSpec T C} {incoming : List ColumnId} {mark : Mark} {next : Nat}
    {scan : TableScan T} (hknows : names.Knows specs) (hspec : spec ∈ specs)
    (hincoming : plan.Incoming specs mark incoming)
    (hscan : plan.HasScan spec incoming mark next scan) :
    ∃ source scope,
      (tableSource names plan mark.select scan).on book = (.ok (source, scope), book) ∧
      Listed names plan book mark.select scan.allColumns source scope := by
  obtain ⟨name, shown, hname, hsource, hfst, hshown⟩ :=
    on_tableSource_eq hbook hknows hspec hincoming hscan
  refine ⟨_, _, hsource, rfl, ?_, ?_, by simp [Source.levels], fun _ => .table hscan.scanAt hname⟩
  · rw [List.map_map, List.map_congr_left fun c hc => hscan.canonical_eq hc, List.map_id']
    exact hfst
  · intro entry hentry
    obtain ⟨⟨column, stored⟩, hmem, rfl⟩ := List.mem_map.mp hentry
    refine ⟨stored, rfl, ?_, fun _ => ?_⟩
    · rintro ⟨⟩
    · exact ⟨scan, hscan.scanAt, hfst ▸ List.mem_map_of_mem hmem, hshown _ hmem⟩

/-- The statement of a select is a source with all its columns, as an inline query. -/
theorem listed_queried {side : Side} {tree : JoinTree T C} {incoming : List ColumnId}
    {first last : Mark} {operand : Operand} {query : Statement} (hknows : names.Knows specs)
    (h : plan.Laid side tree incoming first last operand) (hspecs : tree.specs ⊆ specs)
    (hincoming : plan.Incoming specs first incoming)
    (hquery : Stated names plan book operand.select operand.columns query) :
    ∃ source scope,
      (queriedSource names plan operand.select).on book = (.ok (source, scope), book) ∧
      Listed names plan book operand.select operand.columns source scope := by
  have hnamed := h.named hknows hspecs hincoming
  have hsource := on_subquerySource_eq hbook query h.offers.1 h.select_lt_size hnamed
  refine ⟨_, _, (Aliasing.on_bind_ok hquery.on_eq).trans hsource, rfl, ?_, ?_, hquery.levels,
    fun htokens => .subquery (hquery.resolved htokens)⟩
  · rw [List.map_map]
    rfl
  · intro entry hentry
    obtain ⟨column, hc, rfl⟩ := List.mem_map.mp hentry
    refine ⟨book.label column, rfl, fun _ => (hbook.label_canonical (hnamed column hc)).symm,
      fun htokens => ?_⟩
    exact Source.shows_subquery h.offers.1 hquery.outputNames
      (hbook.nodup_labels htokens hnamed h.nodup_canonical) hc

end Sources

section Levels

variable {select part : SelectId} {columns shown : List ColumnId} {source : Source} {scope : Scope}

/-- The items of a level bear labels, and they stand for their columns if what the scope lists
resolves. -/
theorem on_selectItems_standsFor
    (hbook : book.Settled names plan) (hnamed : ∀ c ∈ columns, plan.Named names c)
    (haliased : ∀ entry ∈ scope, entry.2.aliased → ∃ aliasName,
      entry.2.expr = .property aliasName (book.label entry.1))
    (hexpr : ∀ c ∈ columns, ∃ expr, plan.expression scope c = .ok expr) :
    ∃ items, (selectItems names plan scope columns).on book = (.ok items, book) ∧
      items.map SelectItem.outputName = columns.map (fun column => some (book.label column)) ∧
      ∀ resolves : String → String → ColumnId → Prop,
        (∀ entry ∈ scope, ∃ aliasName name, entry.2.expr = .property aliasName name ∧
          resolves aliasName name entry.1) →
        List.Forall₂ (fun item column => item.expr.StandsFor plan resolves column) items
          columns := by
  obtain ⟨items, hitems, hall⟩ := on_selectItems (P := fun column expr =>
    plan.expression scope column = .ok expr) hbook haliased hnamed fun c hc => by
      obtain ⟨expr, h⟩ := hexpr c hc
      exact ⟨expr, h, h⟩
  refine ⟨items, hitems, ?_, fun resolves hscope => ?_⟩
  · exact (map_eq_of_forall₂ hall fun column item h => h.1.symm).symm
  · exact hall.flip.imp fun item column h => Plan.standsFor_of_expression hscope h.2

namespace Listed

variable (h : Listed names plan book part shown source scope)

include h

theorem aliased : ∀ entry ∈ scope, entry.2.aliased → ∃ aliasName,
    entry.2.expr = .property aliasName (book.label entry.1) := by
  intro entry hentry haliased
  obtain ⟨name, hexpr, hlabel, -⟩ := h.entries entry hentry
  exact ⟨source.aliasName, hlabel haliased ▸ hexpr⟩

theorem exists_property : ∀ entry ∈ scope, ∃ name,
    entry.2.expr = .property source.aliasName name := fun entry hentry => by
  obtain ⟨name, hexpr, -⟩ := h.entries entry hentry
  exact ⟨name, hexpr⟩

/-- At a level where no other source has the alias, what the scope lists resolves. -/
theorem resolves (htokens : plan.TokensDistinct) {sources : List (Source × SelectId)}
    (hnodup : (sources.map fun entry => entry.1.aliasName).Nodup)
    (hmem : (source, part) ∈ sources) : ∀ entry ∈ scope, ∃ aliasName name,
      entry.2.expr = .property aliasName name ∧
        Source.Resolves names plan sources aliasName name entry.1 := by
  intro entry hentry
  obtain ⟨name, hexpr, -, hshows⟩ := h.entries entry hentry
  exact ⟨source.aliasName, name, hexpr, Source.resolves_of_mem hnodup hmem (hshows htokens)⟩

end Listed

theorem exists_stated_of_table (hbook : book.Settled names plan) {scan : TableScan T}
    (hsource : (tableSource names plan part scan).on book = (.ok (source, scope), book))
    (hlisted : Listed names plan book part shown source scope)
    (hstatement : statement names plan select =
      tableSource names plan part scan >>= tableLevel names plan columns)
    (hlt : select < plan.selects.size) (hcolumns : plan.columnsOf select = columns)
    (hconditions : plan.conditionsOf select = [])
    (hnamed : ∀ c ∈ columns, plan.Named names c)
    (hexpr : ∀ c ∈ columns, ∃ expr, plan.expression scope c = .ok expr) :
    ∃ result, Stated names plan book select columns result := by
  obtain ⟨items, hitems, hnames, hstands⟩ :=
    on_selectItems_standsFor hbook hnamed hlisted.aliased hexpr
  refine ⟨⟨items, source, [], []⟩, ?_, hnames, rfl, ?_, fun htokens => ?_⟩
  · rw [hstatement, Aliasing.on_bind_ok hsource, tableLevel, Aliasing.on_bind_ok hitems,
      Aliasing.on_pure]
  · intro level hlevel
    simp only [Statement.levels, Join.levels, List.append_nil, List.mem_cons] at hlevel
    rcases hlevel with rfl | hlevel
    · exact ⟨select, hlt, hcolumns ▸ hnamed, hcolumns ▸ hnames⟩
    · exact hlisted.levels level hlevel
  · have hnodup : ([(source, part)].map fun entry => entry.1.aliasName).Nodup := by simp
    have hresolves := hlisted.resolves htokens hnodup (by simp)
    refine .intro [(source, part)] rfl ?_ (hcolumns ▸ hstands _ hresolves) ?_ (by simp)
    · intro entry hentry
      rw [List.mem_singleton.mp hentry]
      exact hlisted.resolved htokens
    · rw [hconditions]
      exact .nil

end Levels

section Trees

variable {side : Side} {tree left right : JoinTree T C} {incoming shown : List ColumnId}
  {first middle last : Mark} {operand parent child : Operand} {spec : TableSpec T C} {next : Nat}
  {scan : TableScan T} {multiplicity : Multiplicity} {join : PlanJoin} {scope : Scope}

theorem exists_expression_of_mem (hscan : plan.HasScan spec incoming first next scan)
    {source : Source} (hlisted : Listed names plan book first.select scan.allColumns source scope)
    {column : ColumnId} (hc : column ∈ scan.allColumns) {V : Type} [Domain V] {sources : Sources}
    {stands : LevelRow V → Tuple T V → Prop} (hscope : scope.ShownBy sources stands) :
    plan.Expresses scope sources stands column (plan.read · column) := by
  refine Plan.expresses_shown hscope ?_ fun value => ?_
  · rw [hlisted.columns_eq]
    exact List.mem_map_of_mem hc
  · rw [hscan.canonical_eq hc]
    exact hscan.not_literal hc value

variable (hbook : book.Settled names plan) (hknows : names.Knows specs)

include hbook hknows

theorem exists_stated_scan (hspec : spec ∈ specs) (hincoming : plan.Incoming specs first incoming)
    (hscan : plan.HasScan spec incoming first next scan) :
    ∃ result, Stated names plan book first.select scan.allColumns result := by
  obtain ⟨source, scope, hsource, hlisted⟩ := listed_table hbook hknows hspec hincoming hscan
  have hscope := Scope.shownBy_names (T := T) (List.nodup_singleton source.aliasName)
    fun entry hentry => ⟨_, List.mem_singleton_self _, hlisted.exists_property entry hentry⟩
  refine exists_stated_of_table hbook hsource hlisted (statement_scan names hscan)
    (Array.getElem?_eq_some_iff.mp hscan.select).1 ?_ ?_
    (fun c hc => hscan.named hknows hspec hincoming hc) fun c hc => ?_
  · rw [Plan.columnsOf, hscan.select]
  · rw [Plan.conditionsOf, hscan.select]
  · obtain ⟨expr, hexpr, -⟩ := exists_expression_of_mem hscan hlisted hc hscope
    exact ⟨expr, hexpr⟩

theorem exists_stated_view (hspec : spec ∈ specs) (hincoming : plan.Incoming specs first incoming)
    (hscan : plan.HasScan spec incoming first next scan)
    (hview : plan.selects[first.select + 1]? = some (.view first.select next))
    (hrowNumber : plan.columns[next]? = some (.rowNumber scan.foreignKeys)) :
    ∃ result, Stated names plan book (first.select + 1) (scan.allColumns ++ [next]) result := by
  obtain ⟨source, scope, hsource, hlisted⟩ := listed_table hbook hknows hspec hincoming hscan
  have hscope := Scope.shownBy_names (T := T) (List.nodup_singleton source.aliasName)
    fun entry hentry => ⟨_, List.mem_singleton_self _, hlisted.exists_property entry hentry⟩
  have hnext : next ∉ scope.map Prod.fst := fun hmem => by
    rw [hlisted.columns_eq] at hmem
    obtain ⟨column, hc, heq⟩ := List.mem_map.mp hmem
    rw [hscan.canonical_eq hc] at heq
    exact Nat.ne_of_lt (hscan.within hc).2 heq
  refine exists_stated_of_table hbook hsource hlisted (statement_view names hscan hview)
    (Array.getElem?_eq_some_iff.mp hview).1 ?_ ?_ ?_ ?_
  · rw [Plan.columnsOf, hview]
    simp [hscan.scanAt]
  · rw [Plan.conditionsOf, hview]
  · intro c hc
    rcases List.mem_append.mp hc with hc | hc
    · exact hscan.named hknows hspec hincoming hc
    · exact List.mem_singleton.mp hc ▸ .rowNumber hrowNumber
  · intro c hc
    rcases List.mem_append.mp hc with hc | hc
    · obtain ⟨expr, hexpr, -⟩ := exists_expression_of_mem hscan hlisted hc hscope
      exact ⟨expr, hexpr⟩
    · rw [List.mem_singleton.mp hc]
      obtain ⟨keys, hexpr, -⟩ := Plan.expression_rowNumber hnext hrowNumber
        (fun key hkey => (hscan.within (scan.foreignKeys_subset hkey)).2)
        (fun key hkey => exists_expression_of_mem hscan hlisted (scan.foreignKeys_subset hkey)
          hscope)
      exact ⟨_, hexpr⟩

/-- The parent side of a join is a bare table or an inline query. -/
theorem listed_parent (h : plan.Laid .parent tree incoming first last operand)
    (hspecs : tree.specs ⊆ specs) (hincoming : plan.Incoming specs first incoming)
    (hstated : ∃ result, Stated names plan book operand.select operand.columns result) :
    ∃ source scope,
      (parentSource names plan operand.select).on book = (.ok (source, scope), book) ∧
      Listed names plan book operand.select operand.columns source scope := by
  obtain ⟨query, hquery⟩ := hstated
  have hqueried := listed_queried hbook hknows h hspecs hincoming hquery
  cases h with
  | scan hscan =>
      obtain ⟨source, scope, hsource, hlisted⟩ :=
        listed_table hbook hknows (hspecs JoinTree.mem_specs_table) hincoming hscan
      exact ⟨source, scope, (congrArg (Aliasing.on · book) (parentSource_table names hscan)).trans
        hsource, hlisted⟩
  | join hparent hid hchild hjoin =>
      obtain ⟨source, scope, hsource, hlisted⟩ := hqueried
      exact ⟨source, scope, (congrArg (Aliasing.on · book) (parentSource_join names hjoin)).trans
        hsource, hlisted⟩

theorem exists_stated_join {owner : T}
    (hparent : plan.Laid .parent left incoming first middle parent)
    (hid : parent.id ≠ []) (hchild : plan.Laid .child right parent.id middle last child)
    (hjoin : plan.HasJoin parent child multiplicity last next join shown)
    (hspecs : (JoinTree.join left right multiplicity owner).specs ⊆ specs)
    (hincoming : plan.Incoming specs first incoming)
    (hstated : ∃ result, Stated names plan book parent.select parent.columns result)
    (hstated' : ∃ result, Stated names plan book child.select child.columns result) :
    ∃ result, Stated names plan book last.select join.columns result := by
  have hlaid : plan.Laid .parent (.join left right multiplicity owner) incoming first
      ⟨last.select + 1, next⟩ (join.operand last.select) := .join hparent hid hchild hjoin
  have hnamed : ∀ c ∈ join.columns, plan.Named names c := hlaid.named hknows hspecs hincoming
  have hsides := List.append_subset.mp hspecs
  obtain ⟨source, scope, hsource, hlisted⟩ :=
    listed_parent hbook hknows hparent hsides.1 hincoming hstated
  obtain ⟨query, hquery⟩ := hstated'
  obtain ⟨source', scope', hsource', hlisted'⟩ := listed_queried hbook hknows hchild hsides.2
    (hparent.incoming_id hsides.1 hincoming) hquery
  have hne : source.aliasName ≠ source'.aliasName := by
    rw [hlisted.aliasName, hlisted'.aliasName]
    exact hbook.label_select_ne hparent.select_lt_size hchild.select_lt_size
      (hparent.ownKey_select_ne hchild)
  have hcolumns : (scope ++ scope').map Prod.fst =
      (parent.columns ++ child.columns).map plan.canonical := by
    rw [List.map_append, List.map_append, hlisted.columns_eq, hlisted'.columns_eq]
  -- all that a join compares and computes has an expression: neither depends on the rows
  have hscope : (scope ++ scope').ShownBy
      (Level.sources (⟨[source.aliasName, source'.aliasName].map fun a => (a, fun _ => true), []⟩ :
        Level Int)) (fun (_ : LevelRow Int) (_ : Tuple T Int) => False) := by
    refine Scope.shownBy_names (by simpa using hne) fun entry hentry => ?_
    rcases List.mem_append.mp hentry with hentry | hentry
    · exact ⟨_, by simp, hlisted.exists_property entry hentry⟩
    · exact ⟨_, by simp, hlisted'.exists_property entry hentry⟩
  obtain ⟨operations, -, hoperations, -⟩ :=
    exists_conditions (hjoin.expresses_conditions hparent hchild hscope hcolumns)
  have hrows : List.Forall₂ (fun (_ : LevelRow Int) (_ : Tuple T Int) => False) []
      (([] : List (Option (Tuple T Int) × Option (Tuple T Int))).map Tuple.merge) := .nil
  obtain ⟨items, hitems, hnames, hstands⟩ := on_selectItems_standsFor hbook hnamed
    (fun entry hentry => (List.mem_append.mp hentry).elim (hlisted.aliased entry)
      (hlisted'.aliased entry)) fun c hc => by
      obtain ⟨expr, hexpr, -⟩ := hjoin.gives hparent hchild hscope hcolumns hrows hc
      exact ⟨expr, hexpr⟩
  refine ⟨⟨items, source, [⟨source', operations, .fullOuter⟩], []⟩, ?_, hnames, rfl, ?_,
    fun htokens => ?_⟩
  · rw [statement_join names hparent hchild hjoin, Aliasing.on_bind_ok hsource,
      Aliasing.on_bind_ok hsource', joinLevel, hoperations, Aliasing.lift_ok_bind,
      Aliasing.on_bind_ok hitems, Aliasing.on_pure]
  · intro level hlevel
    simp only [Statement.levels, Join.levels, List.append_nil, List.mem_cons, List.mem_append]
      at hlevel
    rcases hlevel with rfl | hlevel | hlevel
    · exact ⟨last.select, hlaid.select_lt_size, hlaid.offers.1 ▸ hnamed, hlaid.offers.1 ▸ hnames⟩
    · exact hlisted.levels level hlevel
    · exact hlisted'.levels level hlevel
  · have hnodup : ([(source, parent.select), (source', child.select)].map
        fun entry => entry.1.aliasName).Nodup := by simpa using hne
    have hresolves : ∀ entry ∈ scope ++ scope', ∃ aliasName name,
        entry.2.expr = .property aliasName name ∧ Source.Resolves names plan
          [(source, parent.select), (source', child.select)] aliasName name entry.1 := by
      intro entry hentry
      rcases List.mem_append.mp hentry with hentry | hentry
      · exact hlisted.resolves htokens hnodup (by simp) entry hentry
      · exact hlisted'.resolves htokens hnodup (by simp) entry hentry
    refine .intro [(source, parent.select), (source', child.select)] rfl ?_
      (hlaid.offers.1 ▸ hstands _ hresolves) ?_ (by simp)
    · intro entry hentry
      simp only [List.mem_cons, List.not_mem_nil, or_false] at hentry
      rcases hentry with rfl | rfl
      · exact hlisted.resolved htokens
      · exact hlisted'.resolved htokens
    · rw [Plan.conditionsOf, hjoin.select]
      simpa [Statement.conditions] using standsFor_of_conditions hresolves hoperations

theorem exists_stated (h : plan.Laid side tree incoming first last operand)
    (hspecs : tree.specs ⊆ specs) (hincoming : plan.Incoming specs first incoming) :
    ∃ result, Stated names plan book operand.select operand.columns result := by
  induction h with
  | scan hscan =>
      exact exists_stated_scan hbook hknows (hspecs JoinTree.mem_specs_table) hincoming hscan
  | view hscan hview hrowNumber =>
      exact exists_stated_view hbook hknows (hspecs JoinTree.mem_specs_table) hincoming hscan
        hview hrowNumber
  | @join side left right incoming shown first middle last next parent child multiplicity owner join
      hparent hid hchild hjoin ihp ihc =>
      have hsides := List.append_subset.mp hspecs
      exact exists_stated_join hbook hknows hparent hid hchild hjoin hspecs hincoming
        (ihp hsides.1 hincoming) (ihc hsides.2 (hparent.incoming_id hsides.1 hincoming))

end Trees

structure Queried (names : NameSource T C) (plan : Plan T C) (book : AliasBook T C)
    (result : Statement) : Prop where
  outputNames : result.items.map SelectItem.outputName =
    (plan.columnsOf plan.root).map fun column => some (book.label column)
  levels : ∀ level ∈ result.levels, level.Lists names plan book.label
  resolved : plan.TokensDistinct → result.Resolved names plan plan.root

section Whole

variable {whole : JoinTree T C} {top : Operand} (hknows : names.Knows specs)
  (hplan : plan.Laid .parent whole [] ⟨0, 0⟩ plan.parts.mark top) (hspecs : whole.specs ⊆ specs)
  (hroot : plan.root = top.select)

theorem names_of_mem {items : List SelectItem} {columns : List ColumnId} {label : ColumnId → String}
    (hnames : items.map SelectItem.outputName = columns.map fun column => some (label column))
    (hnodup : (columns.map label).Nodup) {column : ColumnId} (hc : column ∈ columns)
    (order : SortOrder) : (⟨.aliasRef (label column), order⟩ : OrderItem).Names items := by
  have hitems : (items.map SelectItem.outputName).Nodup := by
    have hsome : (columns.map fun column => some (label column)) =
        (columns.map label).map some := by
      rw [List.map_map]
      rfl
    rw [hnames, hsome]
    exact hnodup.map fun _ _ => Option.some.inj
  have hmem : some (label column) ∈ items.map SelectItem.outputName :=
    hnames ▸ List.mem_map_of_mem hc
  obtain ⟨item, hitem, heq⟩ := List.mem_map.mp hmem
  refine ⟨label column, rfl, ?_⟩
  rw [← heq, filter_eq_singleton hitems hitem, List.length_singleton]

include hknows hplan hspecs hroot

theorem exists_queried (hbook : book.Settled names plan) :
    ∃ result, (query names plan).on book = (.ok result, book) ∧
      Queried names plan book result := by
  obtain ⟨result, hstated⟩ := exists_stated hbook hknows hplan hspecs (plan.incoming_nil specs _)
  have hcolumns : plan.columnsOf plan.root = top.columns := hroot ▸ hplan.offers.1
  have hnamed := named_root hknows hplan hspecs hroot
  have hon : (statement names plan plan.root).on book = (.ok result, book) := hroot ▸ hstated.on_eq
  have hnames : result.items.map SelectItem.outputName =
      (plan.columnsOf plan.root).map fun column => some (book.label column) :=
    hcolumns ▸ hstated.outputNames
  obtain ⟨keys, hkeys, hquery⟩ :=
    on_query_of_statement hknows hplan hspecs hroot hbook hon hstated.orderBy
  refine ⟨_, hquery, hnames, fun level hlevel => ?_, fun htokens => ?_⟩
  · -- the order of the query changes nothing in what its levels list
    have hlevels := hstated.levels
    obtain ⟨items, source, joins, orderBy⟩ := result
    simp only [Statement.levels, List.mem_cons] at hlevel hlevels
    rcases hlevel with rfl | hlevel
    · exact hlevels ⟨items, source, joins, orderBy⟩ (.inl rfl)
    · exact hlevels level (.inr hlevel)
  · obtain ⟨sources, hsources, hresolved, hstands, hconditions, -⟩ := hstated.resolved htokens
    rw [hroot]
    refine .intro sources hsources hresolved hstands hconditions fun item hitem => ?_
    obtain ⟨column, hc, rfl⟩ := List.mem_map.mp hitem
    have hlabels := hbook.nodup_labels htokens hnamed (hcolumns ▸ hplan.nodup_canonical)
    exact names_of_mem hnames hlabels (hkeys hc) _

/-- From any sound book on, the query is what it is under some settled book. -/
theorem exists_query_eq {before : AliasBook T C} (hbefore : before.Sound plan) :
    ∃ result after later, (query names plan).on before = (.ok result, after) ∧
      later.Settled names plan ∧ Queried names plan later result := by
  obtain ⟨hsound, -, hagain⟩ := settles_query hknows hplan hspecs hroot before hbefore
  obtain ⟨later, hsettled, hextends⟩ :=
    hsound.exists_settled fun _ => finds_select hknows hplan hspecs
  obtain ⟨result, hresult, hqueried⟩ := exists_queried hknows hplan hspecs hroot hsettled
  rw [hagain later hextends] at hresult
  have hanswer : ((query names plan).on before).1 = .ok result := congrArg Prod.fst hresult
  exact ⟨result, _, later, Prod.ext hanswer rfl, hsettled, hqueried⟩

end Whole

end Lowering

namespace Draft

variable [DecidableEq T] [DecidableEq C] [ToString T] {root : TableSpec T C}
  {additions : List (Addition T C)} {draft : Draft T C} {plan : Plan T C}
  {names : NameSource T C}

/-- Every reference in the query of an assembled aggregate resolves, uniquely and to the right
column. If the tokens of the tables are distinct and the name source knows the tables, then,
whatever the settings, the query has a statement, and at all of its levels the references resolve
to the columns for which their expressions stand. -/
theorem resolved_query (h : assemble root additions = .ok draft) (hplan : draft.plan = .ok plan)
    (htokens : ((root :: additions.map Addition.spec).flatMap TableSpec.tokens).Nodup)
    (hknows : names.Knows (root :: additions.map Addition.spec)) (settings : Settings) :
    ∃ statement book, (Lowering.query names plan).on { settings } = (.ok statement, book) ∧
      statement.Resolved names plan plan.root := by
  obtain ⟨top, hlaid, hroot, -, -⟩ := laid_of_assemble h hplan
  obtain ⟨statement, book, _, hstatement, -, hqueried⟩ := Lowering.exists_query_eq hknows hlaid
    (specs_of_assemble h).subset hroot (AliasBook.sound_empty plan settings)
  exact ⟨statement, book, hstatement,
    hqueried.resolved (tokensDistinct_of_assemble h hplan htokens)⟩

/-- A root with a child and a grandchild, and a second child with a key. -/
theorem resolved_query_siblings :
    let root : TableSpec Nat Nat := { table := 0, id := some 10, columns := [11] }
    let additions : List (Addition Nat Nat) :=
      [⟨0, .multiple, { table := 1, id := some 20 }⟩, ⟨1, .single, { table := 2, columns := [30] }⟩,
        ⟨0, .multiple, { table := 3, key := some 40 }⟩]
    let names : NameSource Nat Nat := .ofText
    ∃ (draft : Draft Nat Nat) (plan : Plan Nat Nat), assemble root additions = .ok draft ∧
      draft.plan = .ok plan ∧
      ((root :: additions.map Addition.spec).flatMap TableSpec.tokens).Nodup ∧
      names.Knows (root :: additions.map Addition.spec) ∧
      ∃ statement book, (Lowering.query names plan).on { settings := {} } = (.ok statement, book) ∧
        statement.Resolved names plan plan.root := by
  intro root additions names
  obtain ⟨draft, h⟩ : ∃ draft, assemble root additions = .ok draft := ⟨_, rfl⟩
  obtain ⟨-, plan, hplan⟩ := plan_of_assemble h
  have htokens : ((root :: additions.map Addition.spec).flatMap TableSpec.tokens).Nodup := by
    decide
  have hknows : names.Knows (root :: additions.map Addition.spec) :=
    ⟨fun _ _ => ⟨_, rfl⟩, fun _ _ _ _ => ⟨_, rfl⟩⟩
  exact ⟨draft, plan, h, hplan, htokens, hknows, resolved_query h hplan htokens hknows {}⟩

end Draft

end FlatAggregate
