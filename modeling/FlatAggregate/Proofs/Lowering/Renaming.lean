import FlatAggregate.Plan.Lowering
import FlatAggregate.Proofs.Statement.Renaming

/-!
# Renaming what a level shows

Where the aliases of a level are renamed, so is what its sources show: the columns of an inline
query by source and name, those of a table by source only. So one has to tell the aliases of tables
from those of inline queries; then expressions, conditions and levels are renamed with their scope.
-/

namespace FlatAggregate

variable {T C α β γ δ : Type}

section Results

variable {E : Type}

theorem map_bind_eq {x : Except E α} {g : α → γ} {f : α → Except E β} {f' : γ → Except E δ}
    {h : β → δ} (hf : ∀ a, f' (g a) = (f a).map h) : (x.map g >>= f') = (x >>= f).map h := by
  cases x with
  | error error => rfl
  | ok a => exact hf a

theorem mapM_map {f : α → Except E β} {f' : α → Except E γ} {g : β → γ}
    (h : ∀ item, f' item = (f item).map g) (items : List α) :
    items.mapM f' = (items.mapM f).map (List.map g) := by
  induction items with
  | nil => rfl
  | cons item items ih =>
      rw [List.mapM_cons, List.mapM_cons, h item, ih]
      exact map_bind_eq fun _ => map_bind_eq fun _ => rfl

end Results

section Expressions

variable (respell : String → String) (queries : List String)

/-- What a source shows, with renamed aliases, at a level with the inline queries `queries`. -/
def Exposure.rename (exposure : Exposure) : Exposure :=
  ⟨exposure.expr.rename respell queries, exposure.aliased⟩

def Scope.rename (scope : Scope) : Scope :=
  scope.map fun entry => (entry.1, entry.2.rename respell queries)

theorem Scope.rename_append (first second : Scope) :
    rename respell queries (first ++ second) =
      first.rename respell queries ++ second.rename respell queries :=
  List.map_append

theorem Scope.find?_rename (scope : Scope) (column : ColumnId) :
    (scope.rename respell queries).find? column =
      (scope.find? column).map (Exposure.rename respell queries) := by
  rw [find?, find?, rename, ← List.map_reverse]
  induction scope.reverse with
  | nil => rfl
  | cons entry rest ih =>
      rw [List.map_cons, List.lookup_cons, List.lookup_cons, ih]
      cases column == entry.1 <;> rfl

variable {T C : Type} (plan : Plan T C) (scope : Scope)

theorem Plan.expression_rename (column : ColumnId) :
    plan.expression (scope.rename respell queries) column =
      (plan.expression scope column).map (Expr.rename respell queries) := by
  induction column using Nat.strongRecOn with
  | ind column ih =>
    have hoperand : ∀ p, earlier column
        (fun p _ => plan.expression (scope.rename respell queries) p)
        (.error (.columnNotInScope (.column (plan.canonical column)))) p =
          (earlier column (fun p _ => plan.expression scope p)
            (.error (.columnNotInScope (.column (plan.canonical column)))) p).map
              (Expr.rename respell queries) := by
      intro p
      by_cases hlt : p < column
      · simp only [earlier, dif_pos hlt]
        exact ih p hlt
      · simp only [earlier, dif_neg hlt]
        rfl
    have hoperands := mapM_map hoperand
    rw [expression, expression, Scope.find?_rename]
    cases scope.find? (plan.canonical column) with
    | some exposure => rfl
    | none =>
      simp only [Option.map_none]
      cases plan.columns[plan.canonical column]? with
      | none => rfl
      | some definition =>
        cases definition with
        | greatest left right role =>
            simp only [hoperand]
            refine map_bind_eq fun first => map_bind_eq fun second => ?_
            simp [Expr.rename, Except.map, pure, Except.pure]
        | rowNumber partitionBy =>
            simp only [hoperands]
            refine map_bind_eq fun keys => ?_
            simp [Expr.rename, Except.map, pure, Except.pure]
        | maxOver source partitionBy =>
            simp only [hoperand, hoperands]
            refine map_bind_eq fun first => map_bind_eq fun keys => ?_
            simp [Expr.rename, Except.map, pure, Except.pure]
        | _ => rfl

theorem Lowering.condition_rename (cond : JoinCondition) :
    condition plan (scope.rename respell queries) cond =
      (condition plan scope cond).map (Operation.rename respell queries) := by
  rw [condition, condition, Plan.expression_rename, Plan.expression_rename]
  exact map_bind_eq fun _ => map_bind_eq fun _ => rfl

end Expressions

namespace Lowering

def renameSource (respell : String → String) (queries : List String) (source : Source × Scope) :
    Source × Scope :=
  (source.1.rename respell, source.2.rename respell queries)

theorem tableScope_rename {respell : String → String} {queries : List String}
    (names : NameSource T C) (plan : Plan T C) {aliasName : String} (h : aliasName ∉ queries)
    (columns : List ColumnId) :
    tableScope names plan (respell aliasName) columns =
      (tableScope names plan aliasName columns).map (Scope.rename respell queries) := by
  rw [tableScope, tableScope]
  cases columns.mapM fun column => do return (column, ← storedColumn names plan column) with
  | error error => rfl
  | ok stored =>
      refine congrArg Except.ok ?_
      rw [Scope.rename, List.map_filterMap]
      congr 1
      funext entry
      obtain ⟨column, name⟩ := entry
      cases name with
      | none => rfl
      | some name => simp [Exposure.rename, Expr.rename, h]

theorem rename_level (respell : String → String) {queries : List String} {items : List SelectItem}
    {parent child : Source} {conditions : List Operation} {kind : JoinKind}
    (h : parent.queryAlias?.toList ++ child.queryAlias?.toList = queries) :
    Statement.rename respell ⟨items, parent, [⟨child, conditions, kind⟩], []⟩ =
      ⟨items.map (SelectItem.rename respell queries), parent.rename respell,
        [⟨child.rename respell, conditions.map (Operation.rename respell queries), kind⟩], []⟩ := by
  have hjoins : [(⟨child, conditions, kind⟩ : Join)].filterMap (·.source.queryAlias?) =
      child.queryAlias?.toList := by
    cases hchild : child.queryAlias? <;> simp [hchild]
  simp only [Statement.rename, hjoins, h, Join.renameAll, List.map_nil]

end Lowering

end FlatAggregate
