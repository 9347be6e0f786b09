import FlatAggregate.Proofs.Lowering.Sources

/-!
# Select lists

An item of a select list gives a column of the plan when it bears the label of the column and its
expression, a window perhaps, has the values of the column on all rows of the level. A statement
whose items give the columns of a select, one by one, has the rows of that select.

The order of the items is the order of the columns, so the rows of the statement are those of the
select without any permutation; only an order on top permutes them.
-/

namespace FlatAggregate

variable {T C V : Type} [Domain V]

section Related

variable {α β γ : Type} {R : α → β → Prop} {items : List α} {results : List β}

theorem map_eq_of_forall₂ {f : α → γ} {g : β → γ} (h : List.Forall₂ R items results)
    (hfg : ∀ item result, R item result → f item = g result) : items.map f = results.map g := by
  induction h with
  | nil => rfl
  | cons hhead _ ih => rw [List.map_cons, List.map_cons, hfg _ _ hhead, ih]

theorem exists_getElem?_of_forall₂ (h : List.Forall₂ R items results) {position : Nat} {item : α}
    (hitem : items[position]? = some item) :
    ∃ result, results[position]? = some result ∧ R item result := by
  obtain ⟨hlt, rfl⟩ := List.getElem?_eq_some_iff.mp hitem
  have hlt' := h.length_eq ▸ hlt
  exact ⟨results[position], List.getElem?_eq_getElem hlt', h.get hlt hlt'⟩

end Related

namespace Expr

variable {sources : Sources} {stands : LevelRow V → Tuple T V → Prop} {expr : Expr}

theorem itemReading_of_reading {reading : LevelRow V → Option V}
    (h : expr.reading sources = some reading) :
    expr.itemReading sources = some fun _ _ row => reading row := by
  cases expr with
  | window function args partitionBy => simp [Expr.reading] at h
  | _ =>
      rw [itemReading, h, Option.map_some]
      simp

/-- The row numbers of a level are those of the rows for which its rows stand. -/
theorem itemReading_rowNumber {keys : List Expr} {values : List (Tuple T V → Option V)}
    (h : List.Forall₂ (Denotes sources stands) keys values) :
    ∃ reading, (window "ROW_NUMBER" [] keys).itemReading sources = some reading ∧
      ∀ rows tuples, List.Forall₂ stands rows tuples → ∀ position row tuple, stands row tuple →
        reading rows position row = ofNumber
          (rank (tuples.map fun t => values.map (· t)) position (values.map (· tuple))) := by
  obtain ⟨readings, hreadings, hvalues⟩ := exists_readings h
  refine ⟨fun rows position row => ofNumber (rank (rows.map fun r => readings.map (· r)) position
    (readings.map (· row))), ?_, ?_⟩
  · rw [itemReading, hreadings]
    simp [Expr.readings]
  · intro rows tuples hrows position row tuple hstands
    have hkeys := map_eq_of_forall₂ hrows hvalues
    simp only [hkeys, hvalues row tuple hstands]

/-- The maxima of a level are those of the rows for which its rows stand. -/
theorem itemReading_max {source : Expr} {value : Tuple T V → Option V} {keys : List Expr}
    {values : List (Tuple T V → Option V)} (hsource : source.Denotes sources stands value)
    (h : List.Forall₂ (Denotes sources stands) keys values) :
    ∃ reading, (window "MAX" [source] keys).itemReading sources = some reading ∧
      ∀ rows tuples, List.Forall₂ stands rows tuples → ∀ position row tuple, stands row tuple →
        reading rows position row =
          spread (tuples.map fun t => values.map (· t)) (tuples.map value)
            (values.map (· tuple)) := by
  obtain ⟨readings, hreadings, hvalues⟩ := exists_readings h
  obtain ⟨reading, hreading, hvalue⟩ := hsource
  refine ⟨fun rows _ row => spread (rows.map fun r => readings.map (· r)) (rows.map reading)
    (readings.map (· row)), ?_, ?_⟩
  · rw [itemReading, hreadings]
    simp [Expr.readings, hreading]
  · intro rows tuples hrows position row tuple hstands
    have hkeys := map_eq_of_forall₂ hrows hvalues
    have hsources := map_eq_of_forall₂ hrows hvalue
    simp only [hkeys, hsources, hvalues row tuple hstands]

/-- An expression has the values of a column on all rows of a level. -/
def Gives (plan : Plan T C) (level : Level V) (finals : List (Tuple T V)) (column : ColumnId)
    (expr : Expr) : Prop :=
  ∃ reading, expr.itemReading level.sources = some reading ∧
    ∀ (position : Nat) (row : LevelRow V) (final : Tuple T V), level.rows[position]? = some row →
      finals[position]? = some final → reading level.rows position row = plan.read final column

/-- An expression gives a column if it denotes its value on the rows behind the final ones. -/
theorem Denotes.gives {plan : Plan T C} {level : Level V} {finals : List (Tuple T V)}
    {column : ColumnId} {value : Tuple T V → Option V}
    (h : expr.Denotes level.sources stands value)
    (hfinals : ∀ (position : Nat) (row : LevelRow V) (final : Tuple T V),
      level.rows[position]? = some row → finals[position]? = some final →
      ∃ tuple, stands row tuple ∧ plan.read final column = value tuple) :
    expr.Gives plan level finals column := by
  obtain ⟨reading, hreading, hvalue⟩ := h
  refine ⟨_, itemReading_of_reading hreading, fun position row final hrow hfinal => ?_⟩
  obtain ⟨tuple, hstands, hread⟩ := hfinals position row final hrow hfinal
  rw [hvalue row tuple hstands, hread]

end Expr

def SelectItem.Gives (plan : Plan T C) (label : ColumnId → String) (level : Level V)
    (finals : List (Tuple T V)) (column : ColumnId) (item : SelectItem) : Prop :=
  item.outputName = some (label column) ∧ item.expr.Gives plan level finals column

theorem Lowering.on_selectItems [DecidableEq T] [DecidableEq C] {names : NameSource T C}
    {plan : Plan T C} {book : AliasBook T C} (hbook : book.Settled names plan) {scope : Scope}
    {columns : List ColumnId} {P : ColumnId → Expr → Prop}
    (haliased : ∀ entry ∈ scope, entry.2.aliased → ∃ aliasName,
      entry.2.expr = .property aliasName (book.label entry.1))
    (hnamed : ∀ column ∈ columns, plan.Named names column)
    (h : ∀ column ∈ columns, ∃ expr, plan.expression scope column = .ok expr ∧ P column expr) :
    ∃ items, (selectItems names plan scope columns).on book = (.ok items, book) ∧
      List.Forall₂ (fun column item => item.outputName = some (book.label column) ∧
        P column item.expr) columns items := by
  apply Aliasing.on_mapM
  intro column hc
  obtain ⟨expr, hexpr, hgives⟩ := h column hc
  have hgiven : (do
      let expr ← liftM (plan.expression scope column)
      return (⟨expr, some (← Aliasing.column names plan column)⟩ : SelectItem) :
        Aliasing T C SelectItem).on book =
      (.ok ⟨expr, some (book.label column)⟩, book) := by
    rw [hexpr, Aliasing.lift_ok_bind, Aliasing.on_bind_ok (hbook.on_column (hnamed column hc)),
      Aliasing.on_pure]
  cases hfind : scope.find? (plan.canonical column) with
  | none => exact ⟨_, hgiven, rfl, hgives⟩
  | some exposure =>
      obtain ⟨shown, aliased⟩ := exposure
      cases aliased with
      | false => exact ⟨_, hgiven, rfl, hgives⟩
      | true =>
          obtain ⟨aliasName, hshown⟩ := haliased _ (Scope.mem_of_find? hfind) rfl
          dsimp only at hshown
          subst hshown
          have hsame := plan.expression_of_find? hfind
          obtain rfl := Except.ok.inj (hsame.symm.trans hexpr)
          refine ⟨_, Aliasing.on_pure _ _, ?_, hgives⟩
          exact congrArg some (hbook.label_canonical (hnamed column hc))

/-- A statement whose items give the columns of a select has the rows of the select, in its
order. -/
theorem Statement.eval_of_gives {plan : Plan T C} {label : ColumnId → String}
    {sql : SqlDatabase V} {items : List SelectItem} {source : Source} {joins : List Join}
    {orderBy : List OrderItem} {first level : Level V} {finals : List (Tuple T V)}
    {columns : List ColumnId} {order : List (String × SortOrder)}
    (hsource : source.eval sql = some first) (hjoins : Join.evalAll sql joins first = some level)
    (hitems : List.Forall₂ (SelectItem.Gives plan label level finals) columns items)
    (hlength : level.rows.length = finals.length)
    (horder : orderBy.mapM (OrderItem.name? (columns.map label)) = some order) :
    Statement.eval sql ⟨items, source, joins, orderBy⟩ =
      some ⟨columns.map label, (finals.map (plan.reads columns)).mergeSort
        (SqlResult.mayPrecede (columns.map label) order)⟩ := by
  obtain ⟨readings, hreadings, hnames, hvalues⟩ :
      ∃ readings : List (List (LevelRow V) → Nat → LevelRow V → Option V),
        (items.mapM fun item => item.expr.itemReading level.sources) = some readings ∧
        items.mapM SelectItem.outputName = some (columns.map label) ∧
        ∀ (position : Nat) (row : LevelRow V) (final : Tuple T V),
          level.rows[position]? = some row → finals[position]? = some final →
          readings.map (· level.rows position row) = plan.reads columns final := by
    clear horder
    induction hitems with
    | nil => exact ⟨[], rfl, rfl, fun _ _ _ _ _ => rfl⟩
    | cons hitem _ ih =>
        obtain ⟨hname, reading, hreading, hvalue⟩ := hitem
        obtain ⟨readings, hreadings, hnames, hvalues⟩ := ih
        refine ⟨reading :: readings, by simp [hreading, hreadings], by simp [hname, hnames], ?_⟩
        intro position row final hrow hfinal
        rw [List.map_cons, hvalue position row final hrow hfinal,
          hvalues position row final hrow hfinal]
        rfl
  have hrows : (level.rows.mapIdx fun position row =>
      readings.map (· level.rows position row)) = finals.map (plan.reads columns) := by
    refine List.ext_getElem (by simp [hlength]) fun position hrow hfinal => ?_
    rw [List.length_mapIdx] at hrow
    rw [List.length_map] at hfinal
    rw [List.getElem_mapIdx, List.getElem_map]
    exact hvalues position _ _ (List.getElem?_eq_getElem hrow) (List.getElem?_eq_getElem hfinal)
  rw [Statement.eval, hsource]
  simp only [Option.bind_eq_bind, Option.bind_some, hjoins, hnames, hreadings, horder, hrows]

theorem SqlResult.mergeSort_nil (names : List String) (rows : List (List (Option V))) :
    rows.mergeSort (mayPrecede names []) = rows := by
  refine List.mergeSort_of_pairwise (List.pairwise_of_forall fun _ _ => ?_)
  simp [mayPrecede, FlatAggregate.mayPrecede]

end FlatAggregate
