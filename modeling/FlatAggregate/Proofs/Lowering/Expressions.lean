import FlatAggregate.Plan.Lowering
import FlatAggregate.Proofs.Plan.Layout
import FlatAggregate.Proofs.Rows.Reading
import FlatAggregate.Proofs.Statement.Evaluation

/-!
# Expressions in scope

A relation says which rows of a level stand for which rows of a plan. An expression denotes a value
when it can be read with the sources of the level, and reads that value off every row that stands
for a row of the plan. If the entries of a scope do so, the expressions of all columns do: what a
source shows is looked up, and what no source shows is computed from columns in scope.

`Plan.Expresses` says of a column that it has an expression in a scope, one that denotes a value.
Each sort of column has a lemma: what is shown, literals, greatest values, and the two windows,
which are read over all rows of the level.
-/

namespace FlatAggregate

variable {T C V : Type}

section Traversal

variable {m : Type → Type} [Monad m] [LawfulMonad m] {α β : Type}

theorem exists_mapM_eq_pure {f : α → m β} {P : α → β → Prop} {items : List α}
    (h : ∀ item ∈ items, ∃ result, f item = pure result ∧ P item result) :
    ∃ results, items.mapM f = pure results ∧ List.Forall₂ P items results := by
  induction items with
  | nil => exact ⟨[], List.mapM_nil, .nil⟩
  | cons item items ih =>
      obtain ⟨result, hresult, hp⟩ := h item List.mem_cons_self
      obtain ⟨results, hresults, hps⟩ := ih fun other ho => h other (List.mem_cons_of_mem _ ho)
      exact ⟨result :: results, by simp [hresult, hresults], .cons hp hps⟩

end Traversal

namespace Scope

variable {scope : Scope} {column : ColumnId}

theorem mem_of_find? {exposure : Exposure} (h : scope.find? column = some exposure) :
    (column, exposure) ∈ scope := by
  obtain ⟨front, rest, heq, -⟩ := List.lookup_eq_some_iff.mp h
  rw [← List.mem_reverse, heq]
  exact List.mem_append_right _ List.mem_cons_self

theorem find?_eq_none (h : column ∉ scope.map Prod.fst) : scope.find? column = none := by
  cases hfind : scope.find? column with
  | none => rfl
  | some exposure => exact absurd (List.mem_map_of_mem (mem_of_find? hfind)) h

theorem exists_find? (h : column ∈ scope.map Prod.fst) :
    ∃ exposure, scope.find? column = some exposure := by
  obtain ⟨⟨_, exposure⟩, hmem, rfl⟩ := List.mem_map.mp h
  apply Option.isSome_iff_exists.mp
  rw [find?, List.lookup_isSome_iff]
  exact ⟨(_, exposure), List.mem_reverse.mpr hmem, by simp⟩

end Scope

variable [Domain V] {sources : Sources} {stands : LevelRow V → Tuple T V → Prop}

/-- An expression is read as a value off the rows that stand for rows of a plan. -/
def Expr.Denotes (sources : Sources) (stands : LevelRow V → Tuple T V → Prop) (expr : Expr)
    (value : Tuple T V → Option V) : Prop :=
  ∃ reading, expr.reading sources = some reading ∧
    ∀ row tuple, stands row tuple → reading row = value tuple

/-- All entries of a scope name columns of sources that have the values of the plan's columns. -/
def Scope.ShownBy (scope : Scope) (sources : Sources) (stands : LevelRow V → Tuple T V → Prop) :
    Prop :=
  ∀ entry ∈ scope, ∃ aliasName name, entry.2.expr = .property aliasName name ∧
    sources.resolve aliasName name ∧
    ∀ row tuple, stands row tuple → row aliasName name = tuple.value entry.1

def Plan.Expresses (plan : Plan T C) (scope : Scope) (sources : Sources)
    (stands : LevelRow V → Tuple T V → Prop) (column : ColumnId) (value : Tuple T V → Option V) :
    Prop :=
  ∃ expr, plan.expression scope column = .ok expr ∧ expr.Denotes sources stands value

theorem Expr.exists_readings {exprs : List Expr} {values : List (Tuple T V → Option V)}
    (h : List.Forall₂ (Expr.Denotes sources stands) exprs values) :
    ∃ readings, Expr.readings sources exprs = some readings ∧
      ∀ row tuple, stands row tuple → readings.map (· row) = values.map (· tuple) := by
  induction h with
  | nil => exact ⟨[], rfl, fun _ _ _ => rfl⟩
  | cons hexpr _ ih =>
      obtain ⟨reading, hreading, hvalue⟩ := hexpr
      obtain ⟨readings, hreadings, hvalues⟩ := ih
      refine ⟨reading :: readings, by simp [Expr.readings, hreading, hreadings], ?_⟩
      intro row tuple hstands
      rw [List.map_cons, List.map_cons, hvalue row tuple hstands, hvalues row tuple hstands]

theorem Expr.denotes_greatest {left right : Expr} {value value' : Tuple T V → Option V}
    (hleft : left.Denotes sources stands value) (hright : right.Denotes sources stands value') :
    (Expr.call "GREATEST" [left, right]).Denotes sources stands
      fun tuple => greatest [value tuple, value' tuple] := by
  obtain ⟨readings, hreadings, hvalues⟩ := exists_readings (.cons hleft (.cons hright .nil))
  refine ⟨fun row => greatest (readings.map (· row)), ?_, ?_⟩
  · simp [Expr.reading, hreadings]
  · intro row tuple hstands
    exact congrArg greatest (hvalues row tuple hstands)

namespace Plan

variable {plan : Plan T C} {scope : Scope} {column : ColumnId}

theorem expression_of_find? (plan : Plan T C) {exposure : Exposure}
    (h : scope.find? (plan.canonical column) = some exposure) :
    plan.expression scope column = .ok exposure.expr := by
  rw [expression]
  simp only [h]

theorem expresses_shown (hscope : scope.ShownBy sources stands)
    (hmem : plan.canonical column ∈ scope.map Prod.fst)
    (hliteral : ∀ value, plan.columns[plan.canonical column]? ≠ some (.literal value)) :
    plan.Expresses scope sources stands column (plan.read · column) := by
  obtain ⟨exposure, hfind⟩ := Scope.exists_find? hmem
  obtain ⟨aliasName, name, hexpr, hresolve, hvalue⟩ := hscope _ (Scope.mem_of_find? hfind)
  refine ⟨exposure.expr, plan.expression_of_find? hfind, fun row => row aliasName name, ?_, ?_⟩
  · rw [hexpr, Expr.reading, if_pos hresolve]
  · intro row tuple hstands
    exact (hvalue row tuple hstands).trans (read_of_not_literal hliteral).symm

theorem expresses_literal {number : Int64} (hmem : plan.canonical column ∉ scope.map Prod.fst)
    (h : plan.columns[plan.canonical column]? = some (.literal number)) :
    plan.Expresses scope sources stands column (plan.read · column) := by
  refine ⟨.literal number, ?_, fun _ => ofNumber number.toInt, by rw [Expr.reading], ?_⟩
  · rw [expression]
    simp only [Scope.find?_eq_none hmem, h]
  · exact fun row tuple _ => (read_of_literal h).symm

/-- Columns that are earlier than one and have expressions are all operands of that one. -/
theorem exists_mapM_earlier {keys : List ColumnId} {value : ColumnId → Tuple T V → Option V}
    (hlt : ∀ key ∈ keys, key < column)
    (hvalue : ∀ key ∈ keys, plan.Expresses scope sources stands key (value key)) :
    ∃ exprs, keys.mapM (earlier column (fun p _ => plan.expression scope p)
        (.error (.columnNotInScope (.column column)))) = .ok exprs ∧
      List.Forall₂ (Expr.Denotes sources stands) exprs (keys.map value) := by
  have hoperand : ∀ key ∈ keys, ∃ expr, earlier column (fun p _ => plan.expression scope p)
      (.error (.columnNotInScope (.column column))) key = pure expr ∧
        expr.Denotes sources stands (value key) := by
    intro key hkey
    obtain ⟨expr, hexpr, hdenotes⟩ := hvalue key hkey
    exact ⟨expr, by rw [earlier, dif_pos (hlt key hkey), hexpr]; rfl, hdenotes⟩
  obtain ⟨exprs, hexprs, hdenotes⟩ := exists_mapM_eq_pure hoperand
  exact ⟨exprs, hexprs, List.forall₂_map_right_iff.mpr hdenotes.flip⟩

section Computed

variable (hmem : column ∉ scope.map Prod.fst)

include hmem

theorem expresses_greatest {left right : ColumnId} {role : GreatestRole}
    (h : plan.columns[column]? = some (.greatest left right role)) (hleft : left < column)
    (hright : right < column) (hvalue : plan.Expresses scope sources stands left (plan.read · left))
    (hvalue' : plan.Expresses scope sources stands right (plan.read · right)) :
    plan.Expresses scope sources stands column (plan.computed [] 0 · column) := by
  obtain ⟨expr, hexpr, hdenotes⟩ := hvalue
  obtain ⟨expr', hexpr', hdenotes'⟩ := hvalue'
  refine ⟨.call "GREATEST" [expr, expr'], ?_, ?_⟩
  · rw [expression]
    simp only [canonical_of_ne h (by simp), Scope.find?_eq_none hmem, h, earlier, dif_pos hleft,
      dif_pos hright, hexpr, hexpr']
    rfl
  · simp only [computed, h]
    exact Expr.denotes_greatest hdenotes hdenotes'

theorem expression_rowNumber {partitionBy : List ColumnId} {value : ColumnId → Tuple T V → Option V}
    (h : plan.columns[column]? = some (.rowNumber partitionBy))
    (hlt : ∀ key ∈ partitionBy, key < column)
    (hvalue : ∀ key ∈ partitionBy, plan.Expresses scope sources stands key (value key)) :
    ∃ keys, plan.expression scope column = .ok (.window "ROW_NUMBER" [] keys) ∧
      List.Forall₂ (Expr.Denotes sources stands) keys (partitionBy.map value) := by
  have hcanonical := canonical_of_ne h (by simp)
  obtain ⟨keys, hkeys, hdenotes⟩ := exists_mapM_earlier hlt hvalue
  refine ⟨keys, ?_, hdenotes⟩
  rw [expression]
  simp only [hcanonical, Scope.find?_eq_none hmem, h, hkeys]
  rfl

/-- A maximum is computed from the expressions of its column and of its partition. -/
theorem expression_maxOver {source : ColumnId} {partitionBy : List ColumnId}
    {sourceValue : Tuple T V → Option V} {value : ColumnId → Tuple T V → Option V}
    (h : plan.columns[column]? = some (.maxOver source partitionBy)) (hsource : source < column)
    (hlt : ∀ key ∈ partitionBy, key < column)
    (hsourceValue : plan.Expresses scope sources stands source sourceValue)
    (hvalue : ∀ key ∈ partitionBy, plan.Expresses scope sources stands key (value key)) :
    ∃ expr keys, plan.expression scope column = .ok (.window "MAX" [expr] keys) ∧
      expr.Denotes sources stands sourceValue ∧
      List.Forall₂ (Expr.Denotes sources stands) keys (partitionBy.map value) := by
  have hcanonical := canonical_of_ne h (by simp)
  obtain ⟨expr, hexpr, hdenotesSource⟩ := hsourceValue
  obtain ⟨keys, hkeys, hdenotes⟩ := exists_mapM_earlier hlt hvalue
  refine ⟨expr, keys, ?_, hdenotesSource, hdenotes⟩
  have hoperand : earlier column (fun p _ => plan.expression scope p)
      (.error (.columnNotInScope (.column column))) source = .ok expr := by
    rw [earlier, dif_pos hsource, hexpr]
  rw [expression]
  simp only [hcanonical, Scope.find?_eq_none hmem, h, hkeys, hoperand]
  rfl

end Computed

end Plan

end FlatAggregate
