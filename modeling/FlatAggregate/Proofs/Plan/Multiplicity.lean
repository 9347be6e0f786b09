import FlatAggregate.Plan.Text

/-!
# Plans without their multiplicities

`Plan.uniform` gives all joins of a plan the same multiplicity; two plans with the same uniform plan
are equal but for the multiplicities of their joins. What is read off a plan by following its
references, its texts included, is that of the uniform plan: no multiplicity is met on the way.

Selects and columns stay where they are, so a handle means the same in both plans.
-/

namespace FlatAggregate

theorem earlier_congr {α : Type} {n : Nat} {value other : Nat → α} {default : α}
    (h : ∀ p < n, value p = other p) :
    earlier n (fun p _ => value p) default = earlier n (fun p _ => other p) default := by
  funext p
  rw [earlier, earlier]
  split
  · exact h p ‹_›
  · rfl

variable {T C : Type} (m : Multiplicity)

def PlanSelect.uniform : PlanSelect T → PlanSelect T
  | .scan table => .scan table
  | .view table rowNumber => .view table rowNumber
  | .join parts => .join { parts with multiplicity := m }

namespace Plan

def uniform (plan : Plan T C) : Plan T C :=
  { plan with selects := plan.selects.map (PlanSelect.uniform m) }

variable (plan : Plan T C)

@[simp] theorem columns_uniform : (plan.uniform m).columns = plan.columns := rfl

@[simp] theorem root_uniform : (plan.uniform m).root = plan.root := rfl

@[simp] theorem getElem?_selects_uniform (select : SelectId) :
    (plan.uniform m).selects[select]? = plan.selects[select]?.map (PlanSelect.uniform m) :=
  Array.getElem?_map

@[simp] theorem scanAt_uniform (select : SelectId) :
    (plan.uniform m).scanAt select = plan.scanAt select := by
  rw [scanAt, scanAt, getElem?_selects_uniform]
  rcases plan.selects[select]? with _ | (scan | view | join) <;> rfl

@[simp] theorem columnsOf_uniform (select : SelectId) :
    (plan.uniform m).columnsOf select = plan.columnsOf select := by
  rw [columnsOf, columnsOf, getElem?_selects_uniform]
  rcases plan.selects[select]? with _ | (scan | ⟨table, rowNumber⟩ | join)
  · rfl
  · rfl
  · simp [PlanSelect.uniform]
  · rfl

@[simp] theorem tableOf_uniform (select : SelectId) :
    (plan.uniform m).tableOf select = plan.tableOf select := by
  induction select using Nat.strongRecOn with
  | ind select ih =>
    rw [tableOf, tableOf, getElem?_selects_uniform, earlier_congr ih]
    rcases plan.selects[select]? with _ | (scan | view | join) <;> rfl

@[simp] theorem canonical_uniform (column : ColumnId) :
    (plan.uniform m).canonical column = plan.canonical column := by
  induction column using Nat.strongRecOn with
  | ind column ih =>
    rw [canonical, canonical, columns_uniform, earlier_congr ih]

@[simp] theorem sourceColumn_uniform (column : ColumnId) :
    (plan.uniform m).sourceColumn column = plan.sourceColumn column := by
  induction column using Nat.strongRecOn with
  | ind column ih =>
    rw [sourceColumn, sourceColumn, columns_uniform, earlier_congr ih]

section Text

variable [ToString T] [ToString C]

@[simp] theorem columnText_uniform (column : ColumnId) :
    (plan.uniform m).columnText column = plan.columnText column := by
  induction column using Nat.strongRecOn with
  | ind column ih =>
    rw [columnText, columnText, columns_uniform, earlier_congr ih]
    simp only [tableText, tableOf_uniform]

theorem conditionText_uniform (condition : JoinCondition) :
    (plan.uniform m).conditionText condition = plan.conditionText condition := by
  rw [conditionText, conditionText, columnText_uniform, columnText_uniform]

@[simp] theorem selectText_uniform (select : SelectId) :
    (plan.uniform m).selectText select = plan.selectText select := by
  induction select using Nat.strongRecOn with
  | ind select ih =>
    rw [selectText, selectText, getElem?_selects_uniform, earlier_congr ih]
    rcases plan.selects[select]? with _ | (scan | view | join)
    · rfl
    · rfl
    · rfl
    · simp only [Option.map_some, PlanSelect.uniform, funext (conditionText_uniform m plan)]

end Text

end Plan

end FlatAggregate
