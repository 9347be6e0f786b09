import FlatAggregate.Proofs.Builder.Ancestry
import FlatAggregate.Proofs.Plan.Assembled
import FlatAggregate.Proofs.Rows.Twins

/-!
# Pairing rows one to one

Row numbers are there to pair the rows of the two sides of a join one to one. They do so for the
rows of the parent side exactly where the child side is a view, and for the rows of the child side
exactly where all child sides along the parent side are views. So all joins of an aggregate pair
rows one to one exactly when only the root has children (`pairsOneToOne_iff`).
-/

namespace FlatAggregate

variable {T C V : Type}

namespace Plan

def isView (plan : Plan T C) (select : SelectId) : Bool :=
  match plan.selects[select]? with
  | some (.view _ _) => true
  | _ => false

/-- Only the left-most table of a select has children: all child sides along its parent sides are
views. -/
def flat (plan : Plan T C) (select : SelectId) : Bool :=
  match plan.selects[select]? with
  | some (.join join) =>
    plan.isView join.child && earlier select (fun p _ => plan.flat p) true join.parent
  | _ => true
termination_by select

variable {plan : Plan T C} {side : Side} {tree : JoinTree T C} {incoming : List ColumnId}
  {first last : Mark} {operand : Operand}

theorem Laid.isView_iff (h : plan.Laid .child tree incoming first last operand) :
    plan.isView operand.select ↔ ∃ spec, tree = .table spec := by
  cases h with
  | view _ hview _ => simp [TableScan.viewOperand, isView, hview]
  | join _ _ _ hjoin => simp [PlanJoin.operand, isView, hjoin.select]

theorem Laid.flat_iff (h : plan.Laid side tree incoming first last operand) :
    plan.flat operand.select ↔ tree.Flat := by
  induction h with
  | scan hscan =>
      rw [TableScan.operand, flat, hscan.select]
      simp [JoinTree.Flat]
  | view hscan hview _ =>
      rw [TableScan.viewOperand, flat, hview]
      simp [JoinTree.Flat]
  | @join side left right incoming shown first middle last next parent child multiplicity owner join
      hparent _ hchild hjoin ihp _ =>
      have hlt : join.parent < last.select := (hparent.operands_lt hchild hjoin).1
      rw [PlanJoin.operand, flat, hjoin.select]
      simp only [earlier, dif_pos hlt, Bool.and_eq_true]
      rw [hjoin.parent_eq, hjoin.child_eq, ihp, hchild.isView_iff]
      cases right <;> simp [JoinTree.Flat]

theorem Laid.flat_of_forall (h : plan.Laid side tree incoming first last operand)
    (hviews : ∀ (outer : SelectId) (join : PlanJoin), plan.selects[outer]? = some (.join join) →
      plan.isView join.child) : tree.Flat := by
  induction h with
  | scan => trivial
  | view => trivial
  | join _ _ hchild hjoin ihp _ =>
      have hview := hviews _ _ hjoin.select
      rw [hjoin.child_eq, hchild.isView_iff] at hview
      obtain ⟨spec, rfl⟩ := hview
      exact ihp

section Joins

variable [DecidableEq T] [Domain V] {whole left right : JoinTree T C} {top parent child : Operand}
  {shown : List ColumnId} {middle : Mark} {next : Nat} {multiplicity : Multiplicity}
  {join : PlanJoin} (hplan : plan.Laid .parent whole [] ⟨0, 0⟩ plan.parts.mark top)
  (hids : whole.ParentsDeclareIds)
  (hparent : plan.Laid .parent left incoming first middle parent) (hid : parent.id ≠ [])
  (hchild : plan.Laid .child right parent.id middle last child)
  (hjoin : plan.HasJoin parent child multiplicity last next join shown)
  (hroot : left.rootSpec.id.isSome) (hleftIds : left.ParentsDeclareIds)
  (hrightIds : right.ParentsDeclareIds) (hnodup : (left.tables ++ right.tables).Nodup)

include hplan hids hparent hid hchild hjoin hroot hleftIds hrightIds hnodup

/-- The rows of the parent side have one partner at most exactly in views. -/
theorem Laid.forall_parentsPairOnce_iff :
    (∀ db : Database T V, plan.Consistent db → plan.ParentsPairOnce db join) ↔
      plan.isView join.child := by
  rw [hjoin.child_eq, hchild.isView_iff]
  constructor
  · intro hall
    cases right with
    | table spec => exact ⟨spec, rfl⟩
    | join left' right' m o =>
        have hleaf := JoinTree.rootSpec_not_mem_leaves hnodup.of_append_right
        have hnot : (JoinTree.join left' right' m o).rootSpec.table ∉ left.leaves .parent :=
          fun hmem => List.disjoint_of_nodup_append hnodup (JoinTree.leaves_subset left hmem)
            (List.mem_map_of_mem (JoinTree.rootSpec_mem_specs _))
        exact absurd (hall _ (hplan.consistent_twins hids _))
          (hparent.not_parentsPairOnce hid hchild hjoin hroot hleftIds hrightIds hnot hleaf rfl)
  · rintro ⟨spec, rfl⟩ db -
    exact hparent.parentsPairOnce hchild hjoin

/-- The rows of the child side have one partner at most exactly in flat parent sides. -/
theorem Laid.forall_childrenPairOnce_iff :
    (∀ db : Database T V, plan.Consistent db → plan.ChildrenPairOnce db join) ↔
      plan.flat join.parent := by
  rw [hjoin.parent_eq, hparent.flat_iff]
  constructor
  · intro hall
    by_contra hflat
    obtain ⟨late, hmem, hleaf, hdoubles⟩ := JoinTree.exists_doubles hnodup.of_append_left hflat
    have hnot : late ∉ right.leaves .child := fun hmem' =>
      List.disjoint_of_nodup_append hnodup hmem (JoinTree.leaves_subset right hmem')
    exact hparent.not_childrenPairOnce hid hchild hjoin hleftIds hrightIds hleaf hnot hdoubles
      (hall _ (hplan.consistent_twins hids late))
  · exact fun hflat db hdb => hparent.childrenPairOnce hdb hflat hroot hchild hjoin

end Joins

end Plan

namespace Draft

variable [DecidableEq T] [ToString T] [Domain V] {root : TableSpec T C}
  {additions : List (Addition T C)} {draft : Draft T C} {plan : Plan T C}

/-- The join tree of an assembled aggregate is flat if all tables are added below the root. -/
theorem flat_joinTree_iff (h : assemble root additions = .ok draft)
    (hplan : draft.plan = .ok plan) :
    (AggregateTree.ofAdditions root additions).joinTree.Flat ↔
      ∀ addition ∈ additions, addition.parent = root.table := by
  obtain ⟨-, -, -, hnodup, hspined⟩ := laid_of_assemble h hplan
  have howner : (AggregateTree.ofAdditions root additions).joinTree.owner = root.table := by
    rw [← JoinTree.table_rootSpec hspined, AggregateTree.rootSpec_joinTree]
    rfl
  rw [JoinTree.flat_iff hspined hnodup, howner]
  simp only [childrenOf_of_assemble h, List.length_eq_zero_iff, List.filter_eq_nil_iff,
    decide_eq_true_eq]
  constructor
  · intro hnone addition hmem
    by_contra hne
    exact hnone addition.parent hne addition hmem rfl
  · exact fun hall t hne addition hmem heq => hne (heq ▸ hall addition hmem)

/-- If all parents declare ids, a join lets every row of its parent side have at most one partner in
every consistent database exactly when its child side is a view, and every row of its child side
exactly when all child sides along its parent side are views. All joins pair rows one to one in
every consistent database exactly when only the root has children. -/
theorem pairsOneToOne_iff (h : assemble root additions = .ok draft)
    (hplan : draft.plan = .ok plan) (hids : Addition.ParentsDeclareIds root additions) :
    (∀ (outer : SelectId) (join : PlanJoin), plan.selects[outer]? = some (.join join) →
      ((∀ db : Database T V, plan.Consistent db → plan.ParentsPairOnce db join) ↔
        plan.isView join.child) ∧
      ((∀ db : Database T V, plan.Consistent db → plan.ChildrenPairOnce db join) ↔
        plan.flat join.parent)) ∧
    ((∀ db : Database T V, plan.Consistent db →
        ∀ (outer : SelectId) (join : PlanJoin), plan.selects[outer]? = some (.join join) →
          plan.ParentsPairOnce db join ∧ plan.ChildrenPairOnce db join) ↔
      ∀ addition ∈ additions, addition.parent = root.table) := by
  obtain ⟨top, hlaid, hroot, hnodup, -⟩ := laid_of_assemble h hplan
  have htreeIds := AggregateTree.parentsDeclareIds hids
  have hjoins : ∀ (outer : SelectId) (join : PlanJoin), plan.selects[outer]? = some (.join join) →
      ((∀ db : Database T V, plan.Consistent db → plan.ParentsPairOnce db join) ↔
        plan.isView join.child) ∧
      ((∀ db : Database T V, plan.Consistent db → plan.ChildrenPairOnce db join) ↔
        plan.flat join.parent) := by
    intro outer join houter
    obtain ⟨left, right, multiplicity, owner, incoming, first, middle, last, next, parent, child,
      shown, hpart, hleft, hid, hright, hjoin, rfl⟩ := hlaid.exists_hasJoin_of_select houter
    obtain ⟨hrootId, hleftIds, hrightIds⟩ := htreeIds.of_mem_parts hpart
    have hpartNodup := (JoinTree.sublist_of_mem_parts hpart).nodup hnodup
    rw [JoinTree.tables_join] at hpartNodup
    exact
      ⟨hlaid.forall_parentsPairOnce_iff htreeIds hleft hid hright hjoin hrootId hleftIds hrightIds
        hpartNodup,
      hlaid.forall_childrenPairOnce_iff htreeIds hleft hid hright hjoin hrootId hleftIds hrightIds
        hpartNodup⟩
  refine ⟨hjoins, ?_⟩
  rw [← flat_joinTree_iff h hplan]
  constructor
  · exact fun hall => hlaid.flat_of_forall fun outer join houter =>
      (hjoins outer join houter).1.mp fun db hdb => (hall db hdb outer join houter).1
  · intro hflat db hdb outer join houter
    obtain ⟨left, right, multiplicity, owner, incoming, first, middle, last, next, parent, child,
      shown, hpart, hleft, hid, hright, hjoin, rfl⟩ := hlaid.exists_hasJoin_of_select houter
    have hpartFlat := hflat.of_mem_parts hpart
    obtain ⟨hrootId, -, -⟩ := htreeIds.of_mem_parts hpart
    cases right with
    | table spec =>
        exact ⟨hleft.parentsPairOnce hright hjoin,
          hleft.childrenPairOnce hdb hpartFlat hrootId hright hjoin⟩
    | join => exact hpartFlat.elim

/-- A root with two children. -/
theorem pairsOneToOne_iff_star :
    let root : TableSpec Nat Nat := { table := 0, id := some 10 }
    let additions : List (Addition Nat Nat) :=
      [⟨0, .multiple, { table := 1, id := some 11 }⟩, ⟨0, .multiple, { table := 2 }⟩]
    Addition.ParentsDeclareIds root additions ∧ ∃ (draft : Draft Nat Nat) (plan : Plan Nat Nat),
      assemble root additions = .ok draft ∧ draft.plan = .ok plan ∧
      (∀ addition ∈ additions, addition.parent = root.table) ∧
      (∀ (outer : SelectId) (join : PlanJoin), plan.selects[outer]? = some (.join join) →
        ((∀ db : Database Nat Int, plan.Consistent db → plan.ParentsPairOnce db join) ↔
          plan.isView join.child) ∧
        ((∀ db : Database Nat Int, plan.Consistent db → plan.ChildrenPairOnce db join) ↔
          plan.flat join.parent)) ∧
      ∀ db : Database Nat Int, plan.Consistent db →
        ∀ (outer : SelectId) (join : PlanJoin), plan.selects[outer]? = some (.join join) →
          plan.ParentsPairOnce db join ∧ plan.ChildrenPairOnce db join := by
  intro root additions
  have hids : Addition.ParentsDeclareIds root additions := by
    simp [Addition.ParentsDeclareIds, root, additions]
  have hbelow : ∀ addition ∈ additions, addition.parent = root.table := by
    simp [root, additions]
  obtain ⟨draft, h⟩ : ∃ draft, assemble root additions = .ok draft := ⟨_, rfl⟩
  obtain ⟨-, plan, hplan⟩ := plan_of_assemble h
  obtain ⟨hjoins, hiff⟩ := pairsOneToOne_iff (V := Int) h hplan hids
  exact ⟨hids, draft, plan, h, hplan, hbelow, hjoins, hiff.mpr hbelow⟩

/-- A root with a chain of two tables below it: where the middle table has two rows for the one row
of the root, that row matches both. -/
theorem not_pairsOneToOne_of_chain :
    let root : TableSpec Nat Nat := { table := 0, id := some 10 }
    let additions : List (Addition Nat Nat) :=
      [⟨0, .multiple, { table := 1, id := some 11 }⟩, ⟨1, .multiple, { table := 2 }⟩]
    Addition.ParentsDeclareIds root additions ∧
      ∃ (draft : Draft Nat Nat) (plan : Plan Nat Nat) (outer : SelectId) (join : PlanJoin),
      assemble root additions = .ok draft ∧ draft.plan = .ok plan ∧
      plan.selects[outer]? = some (.join join) ∧
      plan.Consistent (plan.twins (V := Int) 1) ∧
      ¬plan.ParentsPairOnce (plan.twins (V := Int) 1) join := by
  intro root additions
  have hids : Addition.ParentsDeclareIds root additions := by
    simp [Addition.ParentsDeclareIds, root, additions]
  obtain ⟨draft, h⟩ : ∃ draft, assemble root additions = .ok draft := ⟨_, rfl⟩
  obtain ⟨-, plan, hplan⟩ := plan_of_assemble h
  obtain ⟨top, hlaid, -⟩ := laid_of_assemble h hplan
  have htreeIds := AggregateTree.parentsDeclareIds hids
  have hconsistent := hlaid.consistent_twins (V := Int) htreeIds 1
  have hchain : plan.Laid .parent (.join (.table root) (.join (.table { table := 1, id := some 11 })
      (.table { table := 2 }) .multiple 1) .multiple 0) [] ⟨0, 0⟩ plan.parts.mark top := hlaid
  obtain ⟨middle, last, next, parent, child, join, shown, hparent, hid, hchild, hjoin⟩ :=
    hchain.exists_sides
  refine ⟨hids, draft, plan, last.select, join, h, hplan, hjoin.select, hconsistent, ?_⟩
  exact hparent.not_parentsPairOnce hid hchild hjoin rfl trivial ⟨rfl, trivial, trivial⟩
    (by simp [JoinTree.leaves]) (by simp [JoinTree.leaves]) rfl

end Draft

end FlatAggregate
