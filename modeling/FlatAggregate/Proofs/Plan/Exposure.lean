import FlatAggregate.Proofs.Plan.Assembled
import FlatAggregate.Proofs.Plan.Naming
import Mathlib.Data.Set.Function
import Mathlib.Logic.Relation

/-!
# The columns that a select exposes

A column belongs to the select with which it is added. The columns that belong to the subtree of a
select are those between its marks (`Laid.ownedBelow_iff`). The columns that the select shows read
exactly those of them that bear a value (`Laid.mem_map_canonical_iff`): a join shows again what its
operands show, and all that it computes. So no column is lost on the way to the outermost select,
and none is shown twice.

`ownedBy` lists the columns that are added with a select, and `OwnedBelow` goes on to the selects
that it reads. `exposed` are the columns of the outermost select that show the columns of a table.
-/

namespace FlatAggregate

variable {T C : Type}

/-- A column with a value of its own, one that is neither another column shown again nor a
literal. -/
def PlanColumn.bearsValue : PlanColumn C → Bool
  | .base _ | .foreignKey _ _ | .rowNumber _ | .greatest _ _ _ | .maxOver _ _ => true
  | .derived _ | .literal _ => false

namespace Plan

def operandsOf (plan : Plan T C) (select : SelectId) : List SelectId :=
  match plan.selects[select]? with
  | some (.view table _) => [table]
  | some (.join join) => [join.parent, join.child]
  | _ => []

def ownedBy (plan : Plan T C) (select : SelectId) : List ColumnId :=
  match plan.selects[select]? with
  | some (.scan scan) => scan.allColumns ++ [scan.rowNumber]
  | some (.view _ rowNumber) => [rowNumber]
  | some (.join join) => join.ownColumns ++ join.id ++ join.columns
  | none => []

def OwnedBelow (plan : Plan T C) (select : SelectId) (column : ColumnId) : Prop :=
  ∃ part, Relation.ReflTransGen (fun s operand => operand ∈ plan.operandsOf s) select part ∧
    column ∈ plan.ownedBy part

def BearsValue (plan : Plan T C) (column : ColumnId) : Prop :=
  ∃ definition, plan.columns[column]? = some definition ∧ definition.bearsValue

variable {plan : Plan T C}

/-- The columns of a subtree are those of its outermost select and those below its operands. -/
theorem ownedBelow_iff (select : SelectId) (column : ColumnId) :
    plan.OwnedBelow select column ↔
      column ∈ plan.ownedBy select ∨ ∃ operand ∈ plan.operandsOf select,
        plan.OwnedBelow operand column := by
  constructor
  · rintro ⟨part, hpart, hc⟩
    rcases Relation.ReflTransGen.cases_head hpart with rfl | ⟨operand, ho, hrest⟩
    · exact .inl hc
    · exact .inr ⟨operand, ho, part, hrest, hc⟩
  · rintro (hc | ⟨operand, ho, part, hpart, hc⟩)
    · exact ⟨select, .refl, hc⟩
    · exact ⟨part, .head ho hpart, hc⟩

section Definitions

variable {spec : TableSpec T C} {incoming shown : List ColumnId} {mark : Mark} {next : Nat}
  {scan : TableScan T} {parent child : Operand} {multiplicity : Multiplicity} {join : PlanJoin}
  {column : Nat}

theorem not_bearsValue_of_derived {source : ColumnId}
    (h : plan.columns[column]? = some (.derived source)) : ¬ plan.BearsValue column := by
  rintro ⟨_, hd, hbears⟩
  obtain rfl := Option.some.inj (h.symm.trans hd)
  simp [PlanColumn.bearsValue] at hbears

theorem HasScan.mem_owned_iff (h : plan.HasScan spec incoming mark next scan) :
    column ∈ scan.allColumns ++ [scan.rowNumber] ↔ mark.column ≤ column ∧ column < next := by
  have howned : scan.allColumns ++ [scan.rowNumber] =
      List.range' mark.column (scan.allColumns.length + 1) := by
    rw [List.range'_concat, Nat.one_mul, ← h.allColumns_eq, h.rowNumber_eq]
  rw [howned, h.next_eq, List.mem_range'_1, Nat.add_assoc]

theorem HasScan.ownedBelow_iff (h : plan.HasScan spec incoming mark next scan) :
    plan.OwnedBelow mark.select column ↔ mark.column ≤ column ∧ column < next := by
  rw [Plan.ownedBelow_iff, ← h.mem_owned_iff]
  simp [ownedBy, operandsOf, h.select]

theorem HasScan.bearsValue (h : plan.HasScan spec incoming mark next scan)
    (hc : column ∈ scan.allColumns) : plan.BearsValue column := by
  rcases h.stored hc with ⟨_, -, heq⟩ | ⟨_, -, -, heq⟩ <;> exact ⟨_, heq, rfl⟩

theorem HasScan.mem_iff (h : plan.HasScan spec incoming mark next scan) :
    column ∈ scan.allColumns ↔ plan.BearsValue column ∧ mark.column ≤ column ∧ column < next := by
  rw [← h.mem_owned_iff, List.mem_append, List.mem_singleton]
  constructor
  · exact fun hc => ⟨h.bearsValue hc, .inl hc⟩
  · rintro ⟨⟨_, hd, hbears⟩, hc | rfl⟩
    · exact hc
    · obtain rfl := Option.some.inj (h.rowNumber.symm.trans hd)
      simp [PlanColumn.bearsValue] at hbears

/-- The columns that belong to a join are those that stand behind its mark. -/
theorem HasJoin.mem_owned (h : plan.HasJoin parent child multiplicity mark next join shown) :
    column ∈ join.ownColumns ++ join.id ++ join.columns ↔
      column ∈ join.ownColumns ++ join.id ++ shown := by
  rw [h.columns]
  simp only [List.mem_append]
  tauto

theorem HasJoin.mem_owned_iff (h : plan.HasJoin parent child multiplicity mark next join shown) :
    column ∈ join.ownColumns ++ join.id ++ join.columns ↔
      mark.column ≤ column ∧ column < next := by
  rw [h.mem_owned, h.range, h.next_eq, List.mem_range'_1]

theorem HasJoin.mem_own_iff (h : plan.HasJoin parent child multiplicity mark next join shown) :
    column ∈ join.ownColumns ↔ plan.BearsValue column ∧ mark.column ≤ column ∧ column < next := by
  have hagain : ∀ {handles sources : List ColumnId},
      plan.Defines handles (sources.map .derived) → column ∈ handles →
        ¬ plan.BearsValue column := fun hd hc => by
    obtain ⟨source, -, heq⟩ := hd.exists_source hc
    exact not_bearsValue_of_derived heq
  rw [h.next_eq, ← List.mem_range'_1, ← h.range, List.mem_append, List.mem_append]
  constructor
  · intro hc
    refine ⟨?_, .inl (.inl hc)⟩
    rcases h.computes hc with ⟨_, _, _, heq⟩ | ⟨_, -, heq⟩ <;> exact ⟨_, heq, rfl⟩
  · rintro ⟨hbears, (hc | hc) | hc⟩
    · exact hc
    · exact absurd hbears (hagain h.id hc)
    · exact absurd hbears (hagain h.shows hc)

end Definitions

section Trees

variable {side : Side} {tree : JoinTree T C} {incoming : List ColumnId} {first last : Mark}
  {operand : Operand} {column : Nat}

theorem Laid.ownedBelow_iff (h : plan.Laid side tree incoming first last operand) :
    plan.OwnedBelow operand.select column ↔ first.column ≤ column ∧ column < last.column := by
  induction h with
  | @scan spec incoming first next scan hscan =>
      exact hscan.ownedBelow_iff
  | @view spec incoming first next scan hscan hview hrowNumber =>
      have hnext := hscan.next_eq
      have hbelow : plan.OwnedBelow (first.select + 1) column ↔
          column = next ∨ plan.OwnedBelow first.select column := by
        simp [Plan.ownedBelow_iff (first.select + 1), ownedBy, operandsOf, hview]
      rw [TableScan.viewOperand, hbelow, hscan.ownedBelow_iff]
      dsimp only
      omega
  | @join side left right incoming shown first middle last next parent child multiplicity owner join
      hparent _ hchild hjoin ihp ihc =>
      have hleft := hparent.room.2.2
      have hright := hchild.room.2.2
      have hnext := hjoin.next_eq
      have hbelow : plan.OwnedBelow last.select column ↔
          column ∈ join.ownColumns ++ join.id ++ join.columns ∨
            plan.OwnedBelow parent.select column ∨ plan.OwnedBelow child.select column := by
        simp [Plan.ownedBelow_iff last.select, ownedBy, operandsOf, hjoin.select,
          hjoin.parent_eq, hjoin.child_eq]
      rw [PlanJoin.operand, hbelow, hjoin.mem_owned_iff, ihp, ihc]
      dsimp only
      omega

/-- The columns that a select shows read the columns of its subtree that bear a value. -/
theorem Laid.mem_map_canonical_iff (h : plan.Laid side tree incoming first last operand) :
    column ∈ operand.columns.map plan.canonical ↔
      plan.BearsValue column ∧ first.column ≤ column ∧ column < last.column := by
  induction h with
  | @scan spec incoming first next scan hscan =>
      rw [TableScan.operand, List.map_congr_left fun c hc => hscan.canonical_eq hc, List.map_id']
      exact hscan.mem_iff
  | @view spec incoming first next scan hscan hview hrowNumber =>
      have hnext := hscan.next_eq
      have hbears : plan.BearsValue next := ⟨_, hrowNumber, rfl⟩
      rw [TableScan.viewOperand, List.map_append,
        List.map_congr_left fun c hc => hscan.canonical_eq hc, List.map_id', List.map_singleton,
        canonical_of_ne hrowNumber (by simp), List.mem_append, List.mem_singleton, hscan.mem_iff]
      constructor
      · rintro (⟨hc, hge, hlt⟩ | rfl)
        · exact ⟨hc, hge, Nat.lt_succ_of_lt hlt⟩
        · exact ⟨hbears, by omega, Nat.lt_succ_self _⟩
      · rintro ⟨hc, hge, hlt⟩
        rcases Nat.lt_succ_iff_lt_or_eq.mp hlt with hlt | rfl
        · exact .inl ⟨hc, hge, hlt⟩
        · exact .inr rfl
  | @join side left right incoming shown first middle last next parent child multiplicity owner join
      hparent _ hchild hjoin ihp ihc =>
      have hleft := hparent.room.2.2
      have hright := hchild.room.2.2
      have hnext := hjoin.next_eq
      rw [PlanJoin.operand, hjoin.columns, List.map_append,
        hjoin.map_canonical_shown (hparent.front hchild),
        List.map_congr_left fun c hc => hjoin.canonical_own hc, List.map_id', List.map_append,
        List.mem_append, List.mem_append, ihp, ihc, hjoin.mem_own_iff, ← and_or_left,
        ← and_or_left]
      refine and_congr_right fun _ => ?_
      dsimp only
      omega

/-- Every select between the marks of a tree is the outermost one of a tree laid out there. -/
theorem Laid.exists_laid (h : plan.Laid side tree incoming first last operand)
    {select : SelectId} (hfirst : first.select ≤ select) (hlast : select < last.select) :
    ∃ side' tree' incoming' first' last' operand',
      plan.Laid side' tree' incoming' first' last' operand' ∧ operand'.select = select := by
  induction h with
  | @scan spec incoming first next scan hscan =>
      obtain rfl : select = first.select := Nat.le_antisymm (Nat.le_of_lt_succ hlast) hfirst
      exact ⟨_, _, _, _, _, _, .scan hscan, rfl⟩
  | @view spec incoming first next scan hscan hview hrowNumber =>
      rcases Nat.eq_or_lt_of_le hfirst with rfl | hlt
      · exact ⟨_, _, _, _, _, _, .scan hscan, rfl⟩
      · obtain rfl : select = first.select + 1 := Nat.le_antisymm (Nat.le_of_lt_succ hlast) hlt
        exact ⟨_, _, _, _, _, _, .view hscan hview hrowNumber, rfl⟩
  | @join side left right incoming shown first middle last next parent child multiplicity owner join
      hparent hid hchild hjoin ihp ihc =>
      rcases Nat.lt_or_ge select middle.select with hlt | hge
      · exact ihp hfirst hlt
      · rcases Nat.lt_or_ge select last.select with hlt | hge'
        · exact ihc hge hlt
        · obtain rfl : select = last.select := Nat.le_antisymm (Nat.le_of_lt_succ hlast) hge'
          exact ⟨side, .join left right multiplicity owner, _, _, _, _,
            .join hparent hid hchild hjoin, rfl⟩

end Trees

section Whole

variable {whole : JoinTree T C} {top : Operand} {select : SelectId} {column : Nat}

/-- In a plan made from a tree every select shows its columns once each. -/
theorem Laid.nodup_canonical_columnsOf
    (hplan : plan.Laid .parent whole [] ⟨0, 0⟩ plan.parts.mark top)
    (hselect : select < plan.selects.size) :
    ((plan.columnsOf select).map plan.canonical).Nodup := by
  obtain ⟨_, _, _, _, _, operand, hlaid, rfl⟩ := hplan.exists_laid (Nat.zero_le _) hselect
  rw [hlaid.offers.1]
  exact hlaid.nodup_canonical

theorem Laid.mem_canonical_columnsOf_iff
    (hplan : plan.Laid .parent whole [] ⟨0, 0⟩ plan.parts.mark top)
    (hselect : select < plan.selects.size) :
    column ∈ (plan.columnsOf select).map plan.canonical ↔
      plan.BearsValue column ∧ plan.OwnedBelow select column := by
  obtain ⟨_, _, _, _, _, operand, hlaid, rfl⟩ := hplan.exists_laid (Nat.zero_le _) hselect
  rw [hlaid.offers.1, hlaid.mem_map_canonical_iff, hlaid.ownedBelow_iff]

theorem Laid.mem_canonical_root_iff
    (hplan : plan.Laid .parent whole [] ⟨0, 0⟩ plan.parts.mark top)
    (hroot : plan.root = top.select) :
    column ∈ (plan.columnsOf plan.root).map plan.canonical ↔ plan.BearsValue column := by
  rw [hroot, hplan.offers.1, hplan.mem_map_canonical_iff]
  refine and_iff_left_of_imp fun ⟨_, hd, _⟩ => ⟨Nat.zero_le _, ?_⟩
  exact (Array.getElem?_eq_some_iff.mp hd).1

def exposed (plan : Plan T C) (scan : TableScan T) : List ColumnId :=
  (plan.columnsOf plan.root).filter (plan.canonical · ∈ scan.allColumns)

theorem Laid.map_canonical_exposed
    (hplan : plan.Laid .parent whole [] ⟨0, 0⟩ plan.parts.mark top)
    (hroot : plan.root = top.select) {scan : TableScan T} (hscan : plan.scanAt select = some scan) :
    ((plan.exposed scan).map plan.canonical).Perm scan.allColumns := by
  obtain ⟨spec, -, incoming, mark, next, -, hlaid, -⟩ := hplan.exists_hasScan_of_scanAt hscan
  have hsize : plan.root < plan.selects.size := hroot ▸ hplan.select_lt_size
  have hfilter : (plan.exposed scan).map plan.canonical =
      ((plan.columnsOf plan.root).map plan.canonical).filter (· ∈ scan.allColumns) := by
    rw [List.filter_map]
    rfl
  have hstored : scan.allColumns.Nodup := by
    rw [hlaid.allColumns_eq]
    exact List.nodup_range'
  have hshown := hplan.nodup_canonical_columnsOf hsize
  rw [hfilter, List.perm_ext_iff_of_nodup (hshown.filter _) hstored]
  intro column
  rw [List.mem_filter, decide_eq_true_eq, hplan.mem_canonical_root_iff hroot]
  exact and_iff_right_of_imp hlaid.bearsValue

end Whole

end Plan

namespace Draft

variable [DecidableEq T] [ToString T] {root : TableSpec T C} {additions : List (Addition T C)}
  {draft : Draft T C} {plan : Plan T C}

/-- No column is lost and none is exposed twice. The columns that a select shows read different
columns, which are those of its subtree that bear a value; for the outermost select they are all
columns of the plan that bear a value. -/
theorem canonical_columnsOf (h : assemble root additions = .ok draft)
    (hplan : draft.plan = .ok plan) :
    (∀ select < plan.selects.size, ((plan.columnsOf select).map plan.canonical).Nodup ∧
      ∀ column, column ∈ (plan.columnsOf select).map plan.canonical ↔
        plan.BearsValue column ∧ plan.OwnedBelow select column) ∧
    Set.BijOn plan.canonical {column | column ∈ plan.columnsOf plan.root}
      {column | plan.BearsValue column} := by
  obtain ⟨top, hlaid, hroot, -, -⟩ := laid_of_assemble h hplan
  refine ⟨fun select hselect => ⟨hlaid.nodup_canonical_columnsOf hselect, fun _ =>
    hlaid.mem_canonical_columnsOf_iff hselect⟩, ?_, ?_, ?_⟩
  · exact fun column hc => (hlaid.mem_canonical_root_iff hroot).mp (List.mem_map_of_mem hc)
  · have hsize : plan.root < plan.selects.size := hroot ▸ hlaid.select_lt_size
    exact fun _ hc _ hc' heq =>
      List.inj_on_of_nodup_map (hlaid.nodup_canonical_columnsOf hsize) hc hc' heq
  · exact fun column hc => List.mem_map.mp ((hlaid.mem_canonical_root_iff hroot).mpr hc)

/-- A root with a child and a grandchild, and a second child with a key. -/
theorem canonical_columnsOf_siblings :
    let root : TableSpec Nat Nat := { table := 0, id := some 10, columns := [11] }
    let additions : List (Addition Nat Nat) :=
      [⟨0, .multiple, { table := 1, id := some 20 }⟩, ⟨1, .single, { table := 2, columns := [30] }⟩,
        ⟨0, .multiple, { table := 3, key := some 40 }⟩]
    ∃ (draft : Draft Nat Nat) (plan : Plan Nat Nat), assemble root additions = .ok draft ∧
      draft.plan = .ok plan ∧
      (∀ select < plan.selects.size, ((plan.columnsOf select).map plan.canonical).Nodup ∧
        ∀ column, column ∈ (plan.columnsOf select).map plan.canonical ↔
          plan.BearsValue column ∧ plan.OwnedBelow select column) ∧
      Set.BijOn plan.canonical {column | column ∈ plan.columnsOf plan.root}
        {column | plan.BearsValue column} := by
  intro root additions
  obtain ⟨draft, h⟩ : ∃ draft, assemble root additions = .ok draft := ⟨_, rfl⟩
  obtain ⟨-, plan, hplan⟩ := plan_of_assemble h
  exact ⟨draft, plan, h, hplan, canonical_columnsOf h hplan⟩

end Draft

end FlatAggregate
