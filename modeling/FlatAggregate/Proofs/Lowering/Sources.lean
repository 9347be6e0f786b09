import FlatAggregate.Proofs.Alias.Settled
import FlatAggregate.Proofs.Lowering.Expressions
import FlatAggregate.Proofs.Rows.Joining

/-!
# Sources of a level

A source, be it a table or an inline query, shows columns of the plan under the names of its own
columns, and its rows have the values of the plan's rows there. What a scope lists for one source is
shown by a level of that source, and what it lists for two sources is shown by the level that joins
them, for their aliases differ and each side of a pair has values for its own columns only.

A `SourceView` is the result of a source with the canonical columns that it shows. `scope` and
`level` are made from it, and `Shows` and `Stands` relate its rows to rows of the plan.
-/

namespace FlatAggregate

variable {T C V : Type}

/-- The result of a source under an alias, and the canonical columns that it shows with their
names. -/
structure SourceView (V : Type) where
  aliasName : String
  /-- Whether the names are aliases of the columns. -/
  aliased : Bool
  shown : List (ColumnId × String)
  offers : String → Bool
  rows : List (String → Option V)

namespace SourceView

def scope (view : SourceView V) : Scope :=
  view.shown.map fun (column, name) => (column, ⟨.property view.aliasName name, view.aliased⟩)

def level (view : SourceView V) : Level V := .single view.aliasName view.offers view.rows

/-- A row of the source has the values of a row of the plan. -/
def Shows (view : SourceView V) (row : String → Option V) (tuple : Tuple T V) : Prop :=
  ∀ entry ∈ view.shown, row entry.2 = tuple.value entry.1

def Stands (view : SourceView V) (row : LevelRow V) (tuple : Tuple T V) : Prop :=
  ∃ own, row = .single view.aliasName own ∧ view.Shows own tuple

/-- A row of two joined levels stands for a row of the plan: both are made from pairs whose sides
stand for each other. -/
def StandTogether (left right : SourceView V) (first middle last : Mark) (row : LevelRow V)
    (tuple : Tuple T V) : Prop :=
  ∃ (sides : Option (LevelRow V) × Option (LevelRow V))
    (pair : Option (Tuple T V) × Option (Tuple T V)),
    Option.Rel left.Stands sides.1 pair.1 ∧ Option.Rel right.Stands sides.2 pair.2 ∧
      SidesWithin first middle last pair ∧ row = .merge sides ∧ tuple = .merge pair

/-- The source shows the rows of a select of a plan. Names that are aliases are the labels of the
columns. -/
structure Presents (view : SourceView V) (plan : Plan T C) (label : ColumnId → String)
    (columns : List ColumnId) (tuples : List (Tuple T V)) : Prop where
  columns_eq : view.shown.map Prod.fst = columns.map plan.canonical
  offers : ∀ entry ∈ view.shown, view.offers entry.2
  aliased : view.aliased → ∀ entry ∈ view.shown, entry.2 = label entry.1
  rows : List.Forall₂ view.Shows view.rows tuples

@[simp] theorem map_fst_scope (view : SourceView V) :
    view.scope.map Prod.fst = view.shown.map Prod.fst := by
  rw [scope, List.map_map]
  rfl

theorem exists_of_mem_scope {view : SourceView V} {entry : ColumnId × Exposure}
    (h : entry ∈ view.scope) :
    ∃ name, (entry.1, name) ∈ view.shown ∧
      entry.2 = ⟨.property view.aliasName name, view.aliased⟩ := by
  obtain ⟨⟨column, name⟩, hmem, rfl⟩ := List.mem_map.mp h
  exact ⟨name, hmem, rfl⟩

section Levels

variable {view left right : SourceView V} {plan : Plan T C} {label : ColumnId → String}
  {columns leftColumns rightColumns : List ColumnId}
  {tuples leftTuples rightTuples : List (Tuple T V)} {first middle last : Mark}

theorem resolve_append_left {aliasName other name : String} {offers offers' : String → Bool}
    (hne : aliasName ≠ other) (h : offers name) :
    Sources.resolve [(aliasName, offers), (other, offers')] aliasName name := by
  simp [Sources.resolve, hne.symm, h]

theorem resolve_append_right {aliasName other name : String} {offers offers' : String → Bool}
    (hne : aliasName ≠ other) (h : offers' name) :
    Sources.resolve [(aliasName, offers), (other, offers')] other name := by
  simp [Sources.resolve, hne, h]

namespace Presents

theorem shownBy (h : view.Presents plan label columns tuples) :
    view.scope.ShownBy view.level.sources (view.Stands (T := T)) := by
  intro entry hentry
  obtain ⟨name, hmem, heq⟩ := exists_of_mem_scope hentry
  refine ⟨view.aliasName, name, by rw [heq], ?_, ?_⟩
  · have hoffers := h.offers _ hmem
    simp [level, Level.single, Sources.resolve, hoffers]
  · rintro _ tuple ⟨own, rfl, hshows⟩
    rw [LevelRow.single, if_pos rfl]
    exact hshows _ hmem

theorem expresses [Domain V] (h : view.Presents plan label columns tuples) {column : ColumnId}
    (hc : column ∈ columns)
    (hliteral : ∀ value, plan.columns[plan.canonical column]? ≠ some (.literal value)) :
    plan.Expresses view.scope view.level.sources (view.Stands (T := T)) column
      (plan.read · column) := by
  refine Plan.expresses_shown h.shownBy ?_ hliteral
  rw [map_fst_scope, h.columns_eq]
  exact List.mem_map_of_mem hc

theorem aliased_scope (h : view.Presents plan label columns tuples) :
    ∀ entry ∈ view.scope, entry.2.aliased → ∃ aliasName,
      entry.2.expr = .property aliasName (label entry.1) := by
  intro entry hentry haliased
  obtain ⟨name, hmem, heq⟩ := exists_of_mem_scope hentry
  rw [heq] at haliased ⊢
  exact ⟨view.aliasName, by rw [← h.aliased haliased _ hmem]⟩

theorem stands (h : view.Presents plan label columns tuples) :
    List.Forall₂ view.Stands view.level.rows tuples :=
  List.forall₂_map_left_iff.mpr (h.rows.imp fun own _ hshows => ⟨own, rfl, hshows⟩)

end Presents

theorem Stands.value_eq {row : LevelRow V} {tuple : Tuple T V} (h : view.Stands row tuple)
    {entry : ColumnId × String} (hentry : entry ∈ view.shown) :
    row view.aliasName entry.2 = tuple.value entry.1 := by
  obtain ⟨own, rfl, hshows⟩ := h
  rw [LevelRow.single, if_pos rfl]
  exact hshows entry hentry

theorem Stands.eq_none {row : LevelRow V} {tuple : Tuple T V} (h : view.Stands row tuple)
    {aliasName : String} (hne : aliasName ≠ view.aliasName) (name : String) :
    row aliasName name = none := by
  obtain ⟨own, rfl, -⟩ := h
  rw [LevelRow.single, if_neg hne]

theorem bind_eq_of_rel {side : Option (LevelRow V)} {tuple : Option (Tuple T V)}
    (h : Option.Rel view.Stands side tuple) {entry : ColumnId × String}
    (hentry : entry ∈ view.shown) :
    side.bind (· view.aliasName entry.2) = tuple.bind (·.value entry.1) := by
  cases h with
  | some h => exact h.value_eq hentry
  | none => rfl

theorem bind_eq_none_of_rel {side : Option (LevelRow V)} {tuple : Option (Tuple T V)}
    (h : Option.Rel view.Stands side tuple) {aliasName : String}
    (hne : aliasName ≠ view.aliasName) (name : String) : side.bind (· aliasName name) = none := by
  cases h with
  | some h => exact h.eq_none hne name
  | none => rfl

theorem shownBy_append (hleft : left.Presents plan label leftColumns leftTuples)
    (hright : right.Presents plan label rightColumns rightTuples)
    (hne : left.aliasName ≠ right.aliasName)
    (hlt : ∀ column ∈ leftColumns, plan.canonical column < middle.column)
    (hle : ∀ column ∈ rightColumns, middle.column ≤ plan.canonical column) :
    (left.scope ++ right.scope).ShownBy (left.level.sources ++ right.level.sources)
      (left.StandTogether right first middle last (T := T)) := by
  intro entry hentry
  rcases List.mem_append.mp hentry with hentry | hentry <;>
    obtain ⟨name, hmem, heq⟩ := exists_of_mem_scope hentry
  · have hcolumn : entry.1 < middle.column := by
      have hfst := List.mem_map_of_mem (f := Prod.fst) hmem
      rw [hleft.columns_eq] at hfst
      obtain ⟨column, hc, hcanonical⟩ := List.mem_map.mp hfst
      exact hcanonical ▸ hlt column hc
    refine ⟨left.aliasName, name, by rw [heq], ?_, ?_⟩
    · exact resolve_append_left hne (hleft.offers _ hmem)
    · rintro _ _ ⟨sides, pair, hl, hr, hsides, rfl, rfl⟩
      rw [Tuple.value_merge_left hsides hcolumn, LevelRow.merge, bind_eq_none_of_rel hr hne,
        Option.or_none]
      exact bind_eq_of_rel hl hmem
  · have hcolumn : middle.column ≤ entry.1 := by
      have hfst := List.mem_map_of_mem (f := Prod.fst) hmem
      rw [hright.columns_eq] at hfst
      obtain ⟨column, hc, hcanonical⟩ := List.mem_map.mp hfst
      exact hcanonical ▸ hle column hc
    refine ⟨right.aliasName, name, by rw [heq], ?_, ?_⟩
    · exact resolve_append_right hne (hright.offers _ hmem)
    · rintro _ _ ⟨sides, pair, hl, hr, hsides, rfl, rfl⟩
      rw [Tuple.value_merge_right hsides hcolumn, LevelRow.merge,
        bind_eq_none_of_rel hl hne.symm, Option.none_or]
      exact bind_eq_of_rel hr hmem

theorem stands_of_rel {side : Option (LevelRow V)} {tuple : Option (Tuple T V)}
    (h : Option.Rel (fun row tuple => view.Stands row tuple ∧ tuple.Within first last) side tuple) :
    Option.Rel view.Stands side tuple ∧ ∀ row, tuple = some row → row.Within first last := by
  cases h with
  | some h => exact ⟨.some h.1, fun row e => Option.some.inj e ▸ h.2⟩
  | none => exact ⟨.none, fun row e => by cases e⟩

end Levels

end SourceView

namespace Lowering

variable {names : NameSource T C} {plan : Plan T C}

variable [DecidableEq T] [DecidableEq C] {book : AliasBook T C} {select : SelectId}
  (hbook : book.Settled names plan)

include hbook

/-- An inline query is a source with all columns of its select, under their labels. -/
theorem on_subquerySource_eq {columns : List ColumnId} (query : Statement)
    (hcolumns : plan.columnsOf select = columns) (hlt : select < plan.selects.size)
    (hnamed : ∀ c ∈ columns, plan.Named names c) :
    (subquerySource names plan select query).on book =
      (.ok (.subquery query (book.aliasAt (.select select)), columns.map fun column =>
        (plan.canonical column,
          ⟨.property (book.aliasAt (.select select)) (book.label column), true⟩)), book) := by
  have hscope : (columns.mapM fun column => do
        let name ← Aliasing.column names plan column
        return (plan.canonical column,
          (⟨.property (book.aliasAt (.select select)) name, true⟩ : Exposure))).on book =
      (.ok (columns.map fun column => (plan.canonical column,
        ⟨.property (book.aliasAt (.select select)) (book.label column), true⟩)), book) :=
    Aliasing.on_mapM_eq fun column hc => by
      rw [Aliasing.on_bind_ok (hbook.on_column (hnamed column hc)), Aliasing.on_pure]
  rw [subquerySource, Aliasing.on_bind_ok (hbook.on_select hlt), hcolumns,
    Aliasing.on_bind_ok hscope, Aliasing.on_pure]

variable [Domain V] (sql : SqlDatabase V)

/-- An inline query presents its select, if it gives the rows of the select. -/
theorem on_subquerySource {columns : List ColumnId} {query : Statement}
    {tuples : List (Tuple T V)} (hcolumns : plan.columnsOf select = columns)
    (hlt : select < plan.selects.size) (hnamed : ∀ c ∈ columns, plan.Named names c)
    (hnodup : (columns.map book.label).Nodup)
    (hliteral : ∀ c ∈ columns, ∀ value, plan.columns[plan.canonical c]? ≠ some (.literal value))
    (heval : query.eval sql =
      some ⟨columns.map book.label, tuples.map (plan.reads columns)⟩) :
    ∃ (source : Source) (view : SourceView V),
      (subquerySource names plan select query).on book = (.ok (source, view.scope), book) ∧
      source.eval sql = some view.level ∧ view.aliasName = book.aliasAt (.select select) ∧
      view.Presents plan book.label columns tuples := by
  let view : SourceView V :=
    { aliasName := book.aliasAt (.select select), aliased := true
      shown := columns.map fun c => (plan.canonical c, book.label c)
      offers := ((columns.map book.label).count · = 1)
      rows := (tuples.map (plan.reads columns)).map
        (SqlResult.valueOf (columns.map book.label)) }
  refine ⟨.subquery query view.aliasName, view, ?_, ?_, rfl, ?_⟩
  · rw [on_subquerySource_eq hbook query hcolumns hlt hnamed, SourceView.scope, List.map_map]
    rfl
  · rw [Source.eval, heval]
    rfl
  · constructor
    · rw [List.map_map]
      rfl
    · intro entry hentry
      obtain ⟨column, hc, rfl⟩ := List.mem_map.mp hentry
      exact decide_eq_true (List.count_eq_one_of_mem hnodup (List.mem_map_of_mem hc))
    · rintro - entry hentry
      obtain ⟨column, hc, rfl⟩ := List.mem_map.mp hentry
      exact (hbook.label_canonical (hnamed column hc)).symm
    · change List.Forall₂ view.Shows ((tuples.map (plan.reads columns)).map _) tuples
      rw [List.map_map, List.forall₂_map_left_iff, List.forall₂_same]
      intro tuple _ entry hentry
      obtain ⟨column, hc, rfl⟩ := List.mem_map.mp hentry
      exact (SqlResult.valueOf_map hnodup hc).trans (Plan.read_of_not_literal (hliteral column hc))

end Lowering

end FlatAggregate
