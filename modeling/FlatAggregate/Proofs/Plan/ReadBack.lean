import FlatAggregate.Proofs.Plan.Tokens

/-!
# Reading a join tree off a plan

A plan keeps the join tree that it is made from: `Plan.tree?` follows the operands of a select down
to the scans, reads the specification of a table off its scan, and leaves aside what building has
added. For the plan of an assembled draft it gives the join tree of the aggregate tree
(`tree?_of_assemble`), and the scans of the plan are the tables of that tree, from left to right
(`map_spec?_scans`).

`tokenAt` reads the token of a base column and `spec?` puts a specification together from those; a
plan that is built from a tree has base columns in all these places.
-/

namespace FlatAggregate

variable {T C : Type}

namespace Plan

def tokenAt (plan : Plan T C) (column : ColumnId) : Option C :=
  plan.columns[column]?.bind PlanColumn.token?

/-- The specification of the table of a scan, if its id, its plain columns and its key are base
columns. -/
def spec? (plan : Plan T C) (scan : TableScan T) : Option (TableSpec T C) := do
  let id ← scan.id.mapM plan.tokenAt
  let columns ← scan.columns.mapM plan.tokenAt
  let key ← scan.key.mapM plan.tokenAt
  return { table := scan.table, id, columns, key }

/-- The join tree of a select. A join belongs to the left-most table of its parent side. -/
def tree? (plan : Plan T C) (select : SelectId) : Option (JoinTree T C) :=
  match plan.selects[select]? with
  | some (.scan scan) => (plan.spec? scan).map .table
  | some (.view table _) => (plan.scanAt table).bind fun scan => (plan.spec? scan).map .table
  | some (.join join) => do
    let parent ← earlier select (fun p _ => plan.tree? p) none join.parent
    let child ← earlier select (fun p _ => plan.tree? p) none join.child
    return .join parent child join.multiplicity parent.rootSpec.table
  | none => none
termination_by select

def scansBetween (plan : Plan T C) (first last : SelectId) : List (TableScan T) :=
  (List.range' first (last - first)).filterMap plan.scanAt

def scans (plan : Plan T C) : List (TableScan T) :=
  plan.scansBetween 0 plan.selects.size

variable {plan : Plan T C}

theorem scansBetween_append {first middle last : SelectId} (h : first ≤ middle)
    (h' : middle ≤ last) : plan.scansBetween first last =
      plan.scansBetween first middle ++ plan.scansBetween middle last := by
  obtain ⟨before, rfl⟩ := Nat.exists_eq_add_of_le h
  obtain ⟨after, rfl⟩ := Nat.exists_eq_add_of_le h'
  rw [scansBetween, scansBetween, scansBetween, Nat.add_sub_cancel_left, Nat.add_sub_cancel_left,
    Nat.add_assoc, Nat.add_sub_cancel_left, ← List.range'_append_1, List.filterMap_append]

theorem scansBetween_succ (select : SelectId) :
    plan.scansBetween select (select + 1) = (plan.scanAt select).toList := by
  rw [scansBetween, Nat.add_sub_cancel_left]
  cases h : plan.scanAt select <;> simp [h]

theorem Defines.mapM_tokenAt {handles : List ColumnId} {tokens : List C}
    (h : plan.Defines handles (tokens.map .base)) : handles.mapM plan.tokenAt = some tokens := by
  rw [Defines, List.forall₂_map_right_iff] at h
  induction h with
  | nil => rfl
  | cons hhead _ ih =>
      have htoken : plan.tokenAt _ = some _ := congrArg (·.bind PlanColumn.token?) hhead
      rw [List.mapM_cons, htoken, ih]
      rfl

theorem Defines.option_mapM_tokenAt {handle : Option ColumnId} {token : Option C}
    (h : plan.Defines handle.toList (token.toList.map .base)) :
    handle.mapM plan.tokenAt = some token := by
  have htokens := h.mapM_tokenAt
  cases handle with
  | none => cases token <;> simp at htokens ⊢
  | some handle =>
      cases hat : plan.tokenAt handle <;> cases token <;> simp_all

theorem HasScan.spec?_eq {spec : TableSpec T C} {incoming : List ColumnId} {mark : Mark}
    {next : Nat} {scan : TableScan T} (h : plan.HasScan spec incoming mark next scan) :
    plan.spec? scan = some spec := by
  rw [spec?, h.table, h.id.option_mapM_tokenAt, h.columns.mapM_tokenAt, h.key.option_mapM_tokenAt]
  rfl

theorem Laid.tree?_eq {side : Side} {tree : JoinTree T C} {incoming : List ColumnId}
    {first last : Mark} {operand : Operand} (h : plan.Laid side tree incoming first last operand)
    (hs : tree.Spined) : plan.tree? operand.select = some tree := by
  induction h with
  | scan hscan =>
      rw [TableScan.operand, tree?, hscan.select]
      simp only [hscan.spec?_eq, Option.map_some]
  | view hscan hview _ =>
      rw [TableScan.viewOperand, tree?, hview]
      simp only [hscan.scanAt, Option.bind_some, hscan.spec?_eq, Option.map_some]
  | @join side left right incoming shown first middle last next parent child multiplicity owner join
      hparent _ hchild hjoin ihp ihc =>
      obtain ⟨howner, hleft, hright⟩ := hs
      have hlt := hparent.operands_lt hchild hjoin
      rw [PlanJoin.operand, tree?, hjoin.select]
      simp only [earlier, dif_pos hlt.1, dif_pos hlt.2]
      rw [hjoin.parent_eq, hjoin.child_eq, ihp hleft, ihc hright]
      simp only [Option.bind_eq_bind, Option.bind_some, hjoin.multiplicity_eq,
        JoinTree.table_rootSpec hleft, howner]
      rfl

/-- The scans between the marks of a tree are those of its tables, in the same order. -/
theorem Laid.map_spec?_scansBetween {side : Side} {tree : JoinTree T C}
    {incoming : List ColumnId} {first last : Mark} {operand : Operand}
    (h : plan.Laid side tree incoming first last operand) :
    (plan.scansBetween first.select last.select).map plan.spec? = tree.specs.map some := by
  induction h with
  | scan hscan =>
      rw [scansBetween_succ, hscan.scanAt, Option.toList_some, List.map_singleton, hscan.spec?_eq,
        JoinTree.specs, List.map_singleton]
  | @view spec incoming first next scan hscan hview _ =>
      have hnone : plan.scanAt (first.select + 1) = none := by rw [scanAt, hview]
      rw [scansBetween_append (Nat.le_succ first.select) (Nat.le_succ (first.select + 1)),
        scansBetween_succ, scansBetween_succ, hscan.scanAt, hnone, Option.toList_some,
        Option.toList_none, List.append_nil, List.map_singleton, hscan.spec?_eq, JoinTree.specs,
        List.map_singleton]
  | @join side left right incoming shown first middle last next parent child multiplicity owner join
      hparent _ hchild hjoin ihp ihc =>
      have hnone : plan.scanAt last.select = none := by rw [scanAt, hjoin.select]
      have hle := Nat.le_trans hparent.room.1 (Nat.le_of_lt hparent.room.2.1)
      have hle' := Nat.le_trans hchild.room.1 (Nat.le_of_lt hchild.room.2.1)
      rw [scansBetween_append (Nat.le_trans hle hle') (Nat.le_succ last.select),
        scansBetween_append hle hle', scansBetween_succ, hnone, Option.toList_none,
        List.append_nil, List.map_append, ihp, ihc, JoinTree.specs, List.map_append]

end Plan

/-- The plan of an assembled draft has the join tree of the aggregate tree. -/
theorem Draft.tree?_of_assemble [DecidableEq T] [ToString T] {root : TableSpec T C}
    {additions : List (Addition T C)} {draft : Draft T C} {plan : Plan T C}
    (h : assemble root additions = .ok draft) (hplan : draft.plan = .ok plan) :
    plan.tree? plan.root = some (AggregateTree.ofAdditions root additions).joinTree := by
  obtain ⟨top, hlaid, hroot, -, hspined⟩ := laid_of_assemble h hplan
  rw [hroot, hlaid.tree?_eq hspined]

/-- The scans of the plan of an assembled draft are those of the tables of the join tree. -/
theorem Draft.map_spec?_scans [DecidableEq T] [ToString T] {root : TableSpec T C}
    {additions : List (Addition T C)} {draft : Draft T C} {plan : Plan T C}
    (h : assemble root additions = .ok draft) (hplan : draft.plan = .ok plan) :
    plan.scans.map plan.spec? =
      (AggregateTree.ofAdditions root additions).joinTree.specs.map some := by
  obtain ⟨top, hlaid, -⟩ := laid_of_assemble h hplan
  exact hlaid.map_spec?_scansBetween

end FlatAggregate
