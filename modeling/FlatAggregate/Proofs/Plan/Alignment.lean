import FlatAggregate.Proofs.Plan.Assembled
import Mathlib.Logic.Relation

/-!
# The columns of a join, position by position

A join compares the id columns of its parent side with the foreign keys of its child side, and what
it computes goes by the same positions (`Plan.Aligned`). The foreign keys of the child side are
those of its left-most table, each spread over the rows of every join in between
(`Laid.forall₂_spreads`). They were made from the very id columns that they are compared with, so no
column is left over on either side.

`Plan.Spreads` follows a foreign key down to the table that stores it: at every join in between it
is the maximum of what the parent side offers.
-/

namespace FlatAggregate

variable {T C : Type}

namespace Plan

def Spreads (plan : Plan T C) (column source : ColumnId) : Prop :=
  ∃ partitionBy, plan.columns[column]? = some (.maxOver source partitionBy)

/-- The id columns of the parent side, the foreign keys of the child side and the columns that the
join makes of them stand at the same positions. -/
structure Aligned (plan : Plan T C) (join : PlanJoin) : Prop where
  length_foreignKeys :
    (plan.foreignKeysOf join.child).length = (plan.idOf join.parent).length
  length_identity : join.identity.length = (plan.idOf join.parent).length
  length_id : join.id.length = (plan.idOf join.parent).length
  length_conditions : join.conditions.length = (plan.idOf join.parent).length + 1
  /-- Ids are compared with foreign keys, and then the row numbers of both sides. -/
  rowNumbers : ∃ left right, plan.rowNumberOf join.parent = some left ∧
    plan.rowNumberOf join.child = some right ∧
    plan.columns[join.rowNumber]? = some (.greatest left right .rowNumber) ∧
    join.conditions =
      List.zipWith .mk (plan.idOf join.parent) (plan.foreignKeysOf join.child) ++ [⟨left, right⟩]
  identity : plan.Defines join.identity (List.zipWith (.greatest · · .identity)
    (plan.idOf join.parent) (plan.foreignKeysOf join.child))
  map_canonical_id : join.id.map plan.canonical = (plan.idOf join.parent).map plan.canonical
  /-- The left-most table of the child side stores the foreign keys, one per id column. -/
  leftmost : ∃ owner scan, plan.leftmost join.child = some scan ∧ plan.scanAt owner = some scan ∧
    plan.Defines scan.foreignKeys ((plan.idOf join.parent).map (.foreignKey · owner)) ∧
    List.Forall₂ (Relation.ReflTransGen plan.Spreads) (plan.foreignKeysOf join.child)
      scan.foreignKeys

variable {plan : Plan T C}

theorem forall₂_spreads_head {columns sources stored : List ColumnId}
    (h : List.Forall₂ plan.Spreads columns sources)
    (hstored : List.Forall₂ (Relation.ReflTransGen plan.Spreads) sources stored) :
    List.Forall₂ (Relation.ReflTransGen plan.Spreads) columns stored := by
  induction h generalizing stored with
  | nil => exact hstored
  | cons hhead _ ih =>
      obtain ⟨_, _, hreaches, hrest, rfl⟩ := List.forall₂_cons_left_iff.mp hstored
      exact .cons (.head hhead hreaches) (ih hrest)

section Laid

variable {side : Side} {tree : JoinTree T C} {incoming : List ColumnId} {first last : Mark}
  {operand parent child : Operand} {multiplicity : Multiplicity} {next : Nat} {join : PlanJoin}
  {shown : List ColumnId}

theorem HasJoin.forall₂_spreads (h : plan.HasJoin parent child multiplicity last next join shown) :
    List.Forall₂ plan.Spreads join.foreignKeys parent.foreignKeys := by
  have hdefines := h.foreignKeys
  rw [Defines, List.forall₂_map_right_iff] at hdefines
  exact hdefines.imp fun _ _ heq => ⟨join.identity, heq⟩

/-- The foreign keys of a select are those of its left-most table, spread over its rows. -/
theorem Laid.forall₂_spreads (h : plan.Laid side tree incoming first last operand)
    {scan : TableScan T} (hleftmost : plan.leftmost operand.select = some scan) :
    List.Forall₂ (Relation.ReflTransGen plan.Spreads) operand.foreignKeys scan.foreignKeys := by
  induction h with
  | scan hscan =>
      rw [TableScan.operand, leftmost_scan hscan.select] at hleftmost
      rw [← Option.some.inj hleftmost]
      exact List.forall₂_refl _
  | view hscan hview _ =>
      rw [TableScan.viewOperand, Plan.leftmost, hview] at hleftmost
      rw [← Option.some.inj (hscan.scanAt.symm.trans hleftmost)]
      exact List.forall₂_refl _
  | @join side left right incoming shown first middle last next parent child multiplicity owner join
      hparent _ hchild hjoin ihp _ =>
      rw [PlanJoin.operand, hparent.leftmost_eq hchild hjoin] at hleftmost
      exact forall₂_spreads_head hjoin.forall₂_spreads (ihp hleftmost)

theorem HasJoin.aligned {left right : JoinTree T C} {middle : Mark}
    (h : plan.HasJoin parent child multiplicity last next join shown)
    (hparent : plan.Laid .parent left incoming first middle parent)
    (hchild : plan.Laid .child right parent.id middle last child) : plan.Aligned join := by
  obtain ⟨-, hid, -, hleftRow⟩ := hparent.offers
  obtain ⟨-, -, hforeignKeys, hrightRow⟩ := hchild.offers
  rw [← h.parent_eq] at hid hleftRow
  rw [← h.child_eq] at hforeignKeys hrightRow
  have hlength := hchild.length_foreignKeys
  have hpairs : (parent.id.zip child.foreignKeys).length = parent.id.length := by
    rw [List.length_zip, hlength, Nat.min_self]
  have hidentity := h.identity
  have hconditions := h.conditions
  obtain ⟨mark, next, scan, hleftmost, hscan, -⟩ := hchild.leftmost
  constructor
  · rw [hid, hforeignKeys, hlength]
  · rw [List.Forall₂.length_eq hidentity, List.length_map, hpairs, hid]
  · rw [List.Forall₂.length_eq h.id, List.length_map, hid]
  · rw [hconditions, List.length_append, List.length_map, hpairs, hid, List.length_singleton]
  · rw [List.map_zip_eq_zipWith, ← hid, ← hforeignKeys] at hconditions
    exact ⟨parent.rowNumber, child.rowNumber, hleftRow, hrightRow, h.rowNumber, hconditions⟩
  · rw [List.map_zip_eq_zipWith, ← hid, ← hforeignKeys] at hidentity
    exact hidentity
  · rw [hid]
    exact h.map_canonical_id (hparent.front hchild)
  · rw [hid, hforeignKeys, h.child_eq]
    exact ⟨mark.select, scan, hleftmost, hscan.scanAt, hscan.foreignKeys,
      hchild.forall₂_spreads hleftmost⟩

end Laid

end Plan

namespace Draft

variable [DecidableEq T] [ToString T] {root : TableSpec T C} {additions : List (Addition T C)}
  {draft : Draft T C} {plan : Plan T C}

/-- All joins of an assembled plan are aligned: none compares fewer columns than its parent side
has ids, and what it computes from them stands at their positions. -/
theorem aligned_of_assemble (h : assemble root additions = .ok draft)
    (hplan : draft.plan = .ok plan) (select : SelectId) (join : PlanJoin)
    (hselect : plan.selects[select]? = some (.join join)) : plan.Aligned join := by
  obtain ⟨top, hlaid, -⟩ := laid_of_assemble h hplan
  obtain ⟨_, _, _, _, _, _, _, _, _, _, _, _, -, hparent, -, hchild, hjoin, -⟩ :=
    hlaid.exists_hasJoin_of_select hselect
  exact hjoin.aligned hparent hchild

/-- Two children nest below a table without id, whose rows are told apart by its foreign key and
its own key. -/
theorem aligned_of_assemble_siblings :
    let root : TableSpec Nat Nat := { table := 0, id := some 10 }
    let additions : List (Addition Nat Nat) :=
      [⟨0, .multiple, { table := 1, key := some 11 }⟩, ⟨1, .multiple, { table := 2 }⟩,
        ⟨1, .single, { table := 3, columns := [30] }⟩]
    ∃ (draft : Draft Nat Nat) (plan : Plan Nat Nat), assemble root additions = .ok draft ∧
      draft.plan = .ok plan ∧ ∃ (select : SelectId) (join : PlanJoin),
        plan.selects[select]? = some (.join join) ∧ (plan.idOf join.parent).length = 2 ∧
        plan.Aligned join := by
  intro root additions
  obtain ⟨draft, h⟩ : ∃ draft, assemble root additions = .ok draft := ⟨_, rfl⟩
  obtain ⟨plan, hplan, join, hselect, hlength⟩ : ∃ plan : Plan Nat Nat,
      (AggregateTree.ofAdditions root additions).joinTree.plan = .ok plan ∧ ∃ join : PlanJoin,
        plan.selects[7]? = some (.join join) ∧ (plan.idOf join.parent).length = 2 :=
    ⟨_, rfl, _, rfl, rfl⟩
  rw [← (plan_of_assemble h).1] at hplan
  exact ⟨draft, plan, h, hplan, 7, join, hselect, hlength,
    aligned_of_assemble h hplan 7 join hselect⟩

end Draft

end FlatAggregate
