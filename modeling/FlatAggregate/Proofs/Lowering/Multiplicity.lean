import FlatAggregate.Plan.Lowering
import FlatAggregate.Proofs.Plan.Multiplicity

/-!
# Lowering without multiplicities

The program that lowers a plan is that of the uniform plan, step by step: aliases, expressions,
sources, levels and the whole statement. So it is one program for all plans that are equal but for
the multiplicities of their joins (`Lowering.query_uniform`).
-/

namespace FlatAggregate

variable {T C : Type} (m : Multiplicity) (names : NameSource T C) (plan : Plan T C)

@[simp] theorem NameSource.storedName_uniform (column : ColumnId) (owner : SelectId) :
    names.storedName (plan.uniform m) column owner = names.storedName plan column owner := by
  rw [storedName, storedName, Plan.sourceColumn_uniform, Plan.tableOf_uniform]

@[simp] theorem Plan.expression_uniform (scope : Scope) (column : ColumnId) :
    (plan.uniform m).expression scope column = plan.expression scope column := by
  induction column using Nat.strongRecOn with
  | ind column ih =>
    rw [expression, expression, canonical_uniform, columns_uniform, earlier_congr ih]

namespace Aliasing

variable [DecidableEq T] [DecidableEq C]

@[simp] theorem select_uniform (select : SelectId) :
    Aliasing.select names (plan.uniform m) select = Aliasing.select names plan select := by
  rw [Aliasing.select, Aliasing.select, Plan.getElem?_selects_uniform]
  rcases plan.selects[select]? with _ | (scan | view | join) <;> rfl

@[simp] theorem column_uniform (column : ColumnId) :
    Aliasing.column names (plan.uniform m) column = Aliasing.column names plan column := by
  induction column using Nat.strongRecOn with
  | ind column ih =>
    rw [Aliasing.column, Aliasing.column, Plan.columns_uniform, earlier_congr ih]
    simp only [NameSource.storedName_uniform]

end Aliasing

namespace Lowering

theorem condition_uniform (scope : Scope) :
    condition (plan.uniform m) scope = condition plan scope := by
  funext comparison
  rw [condition, condition, Plan.expression_uniform, Plan.expression_uniform]

variable [DecidableEq T] [DecidableEq C]

omit [DecidableEq T] [DecidableEq C] in
theorem tableScope_uniform (aliasName : String) (columns : List ColumnId) :
    tableScope names (plan.uniform m) aliasName columns =
      tableScope names plan aliasName columns := by
  have hstored : storedColumn names (plan.uniform m) = storedColumn names plan := by
    funext column
    simp only [storedColumn, Plan.columns_uniform, NameSource.storedName_uniform]
  rw [tableScope, tableScope, hstored]

theorem tableSource_uniform (select : SelectId) (scan : TableScan T) :
    tableSource names (plan.uniform m) select scan = tableSource names plan select scan := by
  simp only [tableSource, Aliasing.select_uniform, tableScope_uniform]

theorem selectItems_uniform (scope : Scope) (columns : List ColumnId) :
    selectItems names (plan.uniform m) scope columns = selectItems names plan scope columns := by
  simp only [selectItems, Plan.canonical_uniform, Plan.expression_uniform, Aliasing.column_uniform]

theorem subquerySource_uniform (select : SelectId) (query : Statement) :
    subquerySource names (plan.uniform m) select query =
      subquerySource names plan select query := by
  simp only [subquerySource, Aliasing.select_uniform, Plan.columnsOf_uniform,
    Aliasing.column_uniform, Plan.canonical_uniform]

theorem statement_uniform (select : SelectId) :
    statement names (plan.uniform m) select = statement names plan select := by
  induction select using Nat.strongRecOn with
  | ind select ih =>
    rw [statement, statement, Plan.getElem?_selects_uniform, earlier_congr ih]
    simp only [Plan.scanAt_uniform, tableSource_uniform, selectItems_uniform,
      subquerySource_uniform, condition_uniform]
    rcases plan.selects[select]? with _ | (scan | view | join) <;> rfl

theorem query_uniform : query names (plan.uniform m) = query names plan := by
  rw [query, query, Plan.root_uniform, statement_uniform, Plan.getElem?_selects_uniform]
  simp only [Aliasing.column_uniform]
  rcases plan.selects[plan.root]? with _ | (scan | view | join) <;> rfl

end Lowering

end FlatAggregate
