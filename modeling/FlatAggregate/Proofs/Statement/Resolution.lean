import FlatAggregate.Proofs.Plan.Naming

/-!
# What references resolve to

A statement refers to a column by the alias of a source and a name. The reference resolves when just
one source of its level has the alias and that source shows the column under the name: a table shows
the columns that it stores, an inline query those that its items stand for, and it has just one item
of the name.

An expression stands for a column of a plan when its form is the definition of the column and every
reference in it resolves to the column that the definition has at that place. A statement is
resolved as the statement of a select when its items stand for the columns of the select, its
conditions for what the select compares, and every inline query in it is resolved in turn.

`Statement.levels` lists a statement and the inline queries in it, `Statement.sources` the sources
of one level and `Statement.conditions` the conditions of its joins.
-/

namespace FlatAggregate

variable {T C : Type}

def Statement.sources (statement : Statement) : List Source :=
  statement.source :: statement.joins.map Join.source

def Statement.conditions (statement : Statement) : List Operation :=
  statement.joins.flatMap Join.conditions

mutual

def Statement.levels : Statement → List Statement
  | ⟨items, source, joins, orderBy⟩ =>
    ⟨items, source, joins, orderBy⟩ :: (source.levels ++ Join.levels joins)

def Source.levels : Source → List Statement
  | .table _ _ => []
  | .subquery query _ => query.levels

def Join.levels : List Join → List Statement
  | [] => []
  | ⟨source, _, _⟩ :: rest => source.levels ++ Join.levels rest

end

def Plan.conditionsOf (plan : Plan T C) (select : SelectId) : List JoinCondition :=
  match plan.selects[select]? with
  | some (.join join) => join.conditions
  | _ => []

/-- The source of a select shows a canonical column under a name. The table of a scan stores it
under that name, as a column of its own or as a foreign key. An inline query has just one item of
the name, and that one stands for the column. -/
def Source.Shows (names : NameSource T C) (plan : Plan T C) (select : SelectId) (name : String)
    (column : ColumnId) : Source → Prop
  | .table _ _ => ∃ scan, plan.scanAt select = some scan ∧ column ∈ scan.allColumns ∧
    names.stored? plan column = some name
  | .subquery query _ =>
    ((query.items.zip (plan.columnsOf select)).filter (·.1.outputName = some name)).map
      (fun entry => plan.canonical entry.2) = [column]

/-- Among the sources of a level, given with their selects, just one has the alias, and it shows the
canonical column under the name. -/
def Source.Resolves (names : NameSource T C) (plan : Plan T C) (sources : List (Source × SelectId))
    (aliasName name : String) (column : ColumnId) : Prop :=
  ∃ source select, sources.filter (·.1.aliasName = aliasName) = [(source, select)] ∧
    source.Shows names plan select name column

/-- An expression has the form of a column's definition, with references that resolve to canonical
columns. -/
inductive Expr.StandsFor (plan : Plan T C) (resolves : String → String → ColumnId → Prop) :
    Expr → ColumnId → Prop
  | property {aliasName name : String} {column : ColumnId}
      (h : resolves aliasName name (plan.canonical column)) :
    StandsFor plan resolves (.property aliasName name) column
  | literal {value : Int64} {column : ColumnId}
      (h : plan.columns[plan.canonical column]? = some (.literal value)) :
    StandsFor plan resolves (.literal value) column
  | greatest {left right : Expr} {column leftColumn rightColumn : ColumnId} {role : GreatestRole}
      (h : plan.columns[plan.canonical column]? = some (.greatest leftColumn rightColumn role))
      (hleft : StandsFor plan resolves left leftColumn)
      (hright : StandsFor plan resolves right rightColumn) :
    StandsFor plan resolves (.call "GREATEST" [left, right]) column
  | rowNumber {keys : List Expr} {column : ColumnId} {partitionBy : List ColumnId}
      (h : plan.columns[plan.canonical column]? = some (.rowNumber partitionBy))
      (hkeys : List.Forall₂ (StandsFor plan resolves) keys partitionBy) :
    StandsFor plan resolves (.window "ROW_NUMBER" [] keys) column
  | maxOver {source : Expr} {keys : List Expr} {column sourceColumn : ColumnId}
      {partitionBy : List ColumnId}
      (h : plan.columns[plan.canonical column]? = some (.maxOver sourceColumn partitionBy))
      (hsource : StandsFor plan resolves source sourceColumn)
      (hkeys : List.Forall₂ (StandsFor plan resolves) keys partitionBy) :
    StandsFor plan resolves (.window "MAX" [source] keys) column

def Operation.StandsFor (plan : Plan T C) (resolves : String → String → ColumnId → Prop)
    (operation : Operation) (condition : JoinCondition) : Prop :=
  ∃ left right, operation = Expr.equals left right ∧
    left.StandsFor plan resolves condition.left ∧ right.StandsFor plan resolves condition.right

/-- An item of an order names just one item of the select list. -/
def OrderItem.Names (items : List SelectItem) (item : OrderItem) : Prop :=
  ∃ name, item.expr = .aliasRef name ∧
    (items.filter (·.outputName = some name)).length = 1

mutual

/-- All references of a statement resolve: the items stand for the columns of a select and the
conditions for what it compares, by way of the sources of the statement; the order names items; and
the sources are resolved themselves. -/
inductive Statement.Resolved (names : NameSource T C) (plan : Plan T C) :
    Statement → SelectId → Prop
  | intro {statement : Statement} {select : SelectId} (sources : List (Source × SelectId))
      (hsources : sources.map Prod.fst = statement.sources)
      (hresolved : ∀ entry ∈ sources, Source.Resolved names plan entry.1 entry.2)
      (hitems : List.Forall₂ (fun item column =>
        item.expr.StandsFor plan (Source.Resolves names plan sources) column)
        statement.items (plan.columnsOf select))
      (hconditions : List.Forall₂ (Operation.StandsFor plan (Source.Resolves names plan sources))
        statement.conditions (plan.conditionsOf select))
      (horder : ∀ item ∈ statement.orderBy, item.Names statement.items) :
    Statement.Resolved names plan statement select

/-- A source is the table of a scan, or an inline query whose references resolve. -/
inductive Source.Resolved (names : NameSource T C) (plan : Plan T C) : Source → SelectId → Prop
  | table {name aliasName : String} {select : SelectId} {scan : TableScan T}
      (hscan : plan.scanAt select = some scan) (hname : names.tableName scan.table = .ok name) :
    Source.Resolved names plan (.table name aliasName) select
  | subquery {query : Statement} {aliasName : String} {select : SelectId}
      (hquery : Statement.Resolved names plan query select) :
    Source.Resolved names plan (.subquery query aliasName) select

end

section Finding

variable {α β : Type} [DecidableEq β] {items : List α} {key : α → β} {item : α}

/-- An item with a key of its own is the only one that is found by its key. -/
theorem filter_eq_singleton (h : (items.map key).Nodup) (hmem : item ∈ items) :
    items.filter (fun other => key other = key item) = [item] := by
  induction items with
  | nil => simp at hmem
  | cons first rest ih =>
      rw [List.map_cons, List.nodup_cons] at h
      rcases List.mem_cons.mp hmem with rfl | hrest
      · have hothers : rest.filter (fun other => key other = key item) = [] := by
          refine List.filter_eq_nil_iff.mpr fun other ho heq => h.1 ?_
          rw [← of_decide_eq_true heq]
          exact List.mem_map_of_mem ho
        rw [List.filter_cons_of_pos (by simp), hothers]
      · have hne : key first ≠ key item := fun heq => h.1 (heq ▸ List.mem_map_of_mem hrest)
        rw [List.filter_cons_of_neg (by simpa using hne), ih h.2 hrest]

end Finding

section Showing

variable {names : NameSource T C} {plan : Plan T C} {select : SelectId}

/-- An inline query shows every column under the name of its item, if the names are distinct. -/
theorem Source.shows_subquery {query : Statement} {aliasName : String} {columns : List ColumnId}
    {label : ColumnId → String} (hcolumns : plan.columnsOf select = columns)
    (hnames : query.items.map SelectItem.outputName = columns.map fun c => some (label c))
    (hnodup : (columns.map label).Nodup) {column : ColumnId} (hc : column ∈ columns) :
    (Source.subquery query aliasName).Shows names plan select (label column)
      (plan.canonical column) := by
  have hzip : (query.items.zip columns).filter (·.1.outputName = some (label column)) =
      (query.items.zip columns).filter (fun entry => label entry.2 = label column) := by
    refine List.filter_congr fun entry hentry => ?_
    obtain ⟨position, hposition⟩ := List.mem_iff_getElem?.mp hentry
    obtain ⟨hitem, hcolumn⟩ := List.getElem?_zip_eq_some.mp hposition
    have hname := congrArg (·[position]?) hnames
    simp only [List.getElem?_map, hitem, hcolumn, Option.map_some] at hname
    rw [Option.some.inj hname]
    simp
  have hlength : query.items.length = columns.length := by
    simpa using congrArg List.length hnames
  have hsnd : (query.items.zip columns).map Prod.snd = columns :=
    List.map_snd_zip (Nat.le_of_eq hlength.symm)
  obtain ⟨entry, hentry, rfl⟩ := List.mem_map.mp (hsnd.symm ▸ hc)
  have hkeys : ((query.items.zip columns).map fun entry => label entry.2).Nodup := by
    have hmap : ((query.items.zip columns).map fun entry => label entry.2) = columns.map label := by
      conv_rhs => rw [← hsnd, List.map_map]
      rfl
    rw [hmap]
    exact hnodup
  rw [Shows, hcolumns, hzip, filter_eq_singleton hkeys hentry, List.map_singleton]

theorem Source.resolves_of_mem {sources : List (Source × SelectId)}
    (hnodup : (sources.map fun entry => entry.1.aliasName).Nodup) {source : Source}
    (hmem : (source, select) ∈ sources) {name : String} {column : ColumnId}
    (h : source.Shows names plan select name column) :
    Source.Resolves names plan sources source.aliasName name column :=
  ⟨source, select, filter_eq_singleton hnodup hmem, h⟩

end Showing

end FlatAggregate
