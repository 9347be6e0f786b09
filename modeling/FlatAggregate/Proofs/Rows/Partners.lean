import FlatAggregate.Proofs.Rows.Lineage

/-!
# The partners of a row

A join compares ids with foreign keys and row numbers with row numbers. A view numbers the rows that
have the same foreign keys, so no two of its rows agree in both: a row of the parent side has at
most one partner in a view.

On the parent side of a join, rows are told apart by their ids. While all child sides along the
parent sides are views, each row of the left-most table still stands on one row, with its own id and
row number, so a row of the child side has at most one partner as well.
-/

namespace FlatAggregate

section Lists

variable {α β K : Type}

theorem rank_lt_rank [DecidableEq K] {keys : List K} {i j : Nat} {key : K} (hlt : i < j)
    (hkey : keys[j]? = some key) : rank keys i key < rank keys j key := by
  have hlast : keys.take (j + 1) = keys.take j ++ [key] := by
    rw [List.take_add_one, hkey, Option.toList_some]
  have hle : (keys.take (i + 1)).count key ≤ (keys.take j).count key :=
    (List.take_sublist_take_left hlt).count_le key
  rw [rank, rank, hlast, List.count_append, List.count_singleton_self]
  exact Nat.lt_succ_of_le hle

theorem length_le_one_of_pairwise {R : α → α → Prop} {rows : List α} (h : rows.Pairwise R)
    (hno : ∀ a ∈ rows, ∀ b ∈ rows, ¬R a b) : rows.length ≤ 1 := by
  match rows with
  | [] => exact Nat.zero_le 1
  | [a] => exact Nat.le_refl 1
  | a :: b :: rest =>
      exact absurd ((List.pairwise_cons.mp h).1 b List.mem_cons_self)
        (hno a List.mem_cons_self b (List.mem_cons_of_mem _ List.mem_cons_self))

variable {on : α → β → Bool} {left : List α} {right : List β}

theorem fst_of_mem_withPartners {a : α} {pair : Option α × Option β}
    (h : pair ∈ withPartners on right a) : pair.1 = some a := by
  rcases mem_withPartners.mp h with ⟨b, -, -, rfl⟩ | ⟨-, rfl⟩ <;> rfl

/-- Where rows of the left side have one partner at most, the pairs are related pairwise if those of
different left rows are, and those without a left row are to all. -/
theorem pairwise_fullOuter {R : Option α × Option β → Option α × Option β → Prop}
    (honce : ∀ a ∈ left, (right.filter (on a)).length ≤ 1)
    (hleft : left.Pairwise fun a a' => ∀ x ∈ fullOuter on left right,
      ∀ y ∈ fullOuter on left right, x.1 = some a → y.1 = some a' → R x y)
    (hright : ∀ x ∈ fullOuter on left right, ∀ y ∈ fullOuter on left right, y.1 = none → R x y) :
    (fullOuter on left right).Pairwise R := by
  have hmem : ∀ a ∈ left, ∀ x ∈ withPartners on right a, x ∈ fullOuter on left right :=
    fun a ha x hx => List.mem_append_left _ (List.mem_flatMap.mpr ⟨a, ha, hx⟩)
  have hrest : ∀ y ∈ (right.filter fun b => !left.any (on · b)).map fun b => (none, some b),
      y ∈ fullOuter on left right ∧ y.1 = none := by
    intro y hy
    obtain ⟨b, -, rfl⟩ := List.mem_map.mp hy
    exact ⟨List.mem_append_right _ hy, rfl⟩
  refine List.pairwise_append.mpr ⟨List.pairwise_flatMap.mpr ⟨fun a ha => ?_, ?_⟩, ?_, ?_⟩
  · -- one partner at most makes one pair
    have hone := honce a ha
    rw [withPartners]
    cases h : right.filter (on a) with
    | nil => exact List.pairwise_singleton _ _
    | cons b rest =>
        rw [h] at hone
        obtain rfl : rest = [] :=
          List.length_eq_zero_iff.mp (Nat.le_zero.mp (Nat.le_of_succ_le_succ hone))
        exact List.pairwise_singleton _ _
  · refine hleft.imp_of_mem fun ha ha' h x hx y hy => ?_
    exact h x (hmem _ ha x hx) y (hmem _ ha' y hy) (fst_of_mem_withPartners hx)
      (fst_of_mem_withPartners hy)
  · exact List.pairwise_of_forall_mem_list fun x hx y hy =>
      hright x (hrest x hx).1 y (hrest y hy).1 (hrest y hy).2
  · intro x hx y hy
    obtain ⟨a, ha, hx⟩ := List.mem_flatMap.mp hx
    exact hright x (hmem a ha x hx) y (hrest y hy).1 (hrest y hy).2

end Lists

variable {T C V : Type}

namespace Plan

variable [DecidableEq T] [Domain V]

/-- Every row of the parent side of a join matches at most one row of the child side. -/
def ParentsPairOnce (plan : Plan T C) (db : Database T V) (join : PlanJoin) : Prop :=
  ∀ a ∈ plan.rows db join.parent,
    ((plan.rows db join.child).filter fun b => plan.agree join.conditions a b).length ≤ 1

/-- Every row of the child side of a join matches at most one row of the parent side. -/
def ChildrenPairOnce (plan : Plan T C) (db : Database T V) (join : PlanJoin) : Prop :=
  ∀ b ∈ plan.rows db join.child,
    ((plan.rows db join.parent).filter fun a => plan.agree join.conditions a b).length ≤ 1

/-- Two rows that the joins above cannot tell apart: they have the same ids, all of them there, and
the same row number. -/
structure Alike (plan : Plan T C) (operand : Operand) (a b : Tuple T V) : Prop where
  id : plan.reads operand.id a = plan.reads operand.id b
  present : none ∉ plan.reads operand.id a
  rowNumber : plan.read a operand.rowNumber = plan.read b operand.rowNumber

variable {plan : Plan T C} {db : Database T V} {tree left right : JoinTree T C}
  {spec : TableSpec T C} {incoming shown : List ColumnId} {first middle last : Mark} {next : Nat}
  {operand parent child : Operand} {multiplicity : Multiplicity} {join : PlanJoin}

omit [DecidableEq T] in
theorem Laid.reads_of_agree (hparent : plan.Laid .parent left incoming first middle parent)
    (hchild : plan.Laid .child right parent.id middle last child)
    (hjoin : plan.HasJoin parent child multiplicity last next join shown) {a b : Tuple T V}
    (ha : a.Within first middle) (hb : b.Within middle last) (h : plan.agree join.conditions a b) :
    plan.reads parent.id a = plan.reads child.foreignKeys b ∧ none ∉ plan.reads parent.id a ∧
      plan.read a parent.rowNumber = plan.read b child.rowNumber := by
  obtain ⟨hcompared, hrowNumber⟩ := (hparent.agree_iff hchild hjoin ha hb).mp h
  have hlength : parent.id.length = child.foreignKeys.length := hchild.length_foreignKeys.symm
  have hsame : List.Forall₂ (fun l r => plan.read a l = plan.read b r)
      parent.id child.foreignKeys :=
    List.forall₂_iff_zip.mpr ⟨hlength, fun hc => (sameValue_iff.mp (hcompared _ hc)).1⟩
  refine ⟨?_, fun hnone => ?_, (sameValue_iff.mp hrowNumber).1⟩
  · rwa [← List.forall₂_eq_eq_eq, reads, reads, List.forall₂_map_left_iff,
      List.forall₂_map_right_iff]
  · obtain ⟨column, hc, hread⟩ := List.mem_map.mp hnone
    rw [← List.map_fst_zip hlength.le] at hc
    obtain ⟨compared, hmem, rfl⟩ := List.mem_map.mp hc
    exact (sameValue_iff.mp (hcompared compared hmem)).2 hread

/-- No two rows of a view have the same foreign keys and the same number. -/
theorem Laid.pairwise_numbered (h : plan.Laid .child (.table spec) incoming first last operand) :
    (plan.rows db operand.select).Pairwise fun b b' =>
      plan.reads operand.foreignKeys b = plan.reads operand.foreignKeys b' →
        plan.read b operand.rowNumber ≠ plan.read b' operand.rowNumber := by
  cases h with
  | @view _ _ _ next scan hscan hview hrowNumber =>
      rw [TableScan.viewOperand, rows_view hview (Nat.lt_succ_self _), compute,
        List.pairwise_iff_getElem]
      intro i j hi hj hlt hkeys
      simp only [List.getElem_mapIdx] at hkeys ⊢
      rw [List.length_mapIdx] at hi hj
      -- a number leaves the foreign keys as they are
      have hreads : ∀ (row : Tuple T V) (value : ColumnId → Option V),
          plan.reads scan.foreignKeys (row.withValues [next] value) =
            plan.reads scan.foreignKeys row := fun row value =>
        List.map_congr_left fun column hc =>
          hscan.read_withValues row value (scan.foreignKeys_subset hc)
      rw [hreads, hreads] at hkeys
      have hkey : ((plan.rows db first.select).map (plan.reads scan.foreignKeys))[j]? =
          some (plan.reads scan.foreignKeys (plan.rows db first.select)[i]) := by
        rw [List.getElem?_map, List.getElem?_eq_getElem hj, Option.map_some, hkeys]
      have hrank := rank_lt_rank hlt hkey
      rw [read_rowNumber hrowNumber, read_rowNumber hrowNumber, ← hkeys, Ne, ofNumber_inj]
      exact fun heq => hrank.ne (Int.ofNat_inj.mp heq)

/-- Every row of the parent side has at most one partner in a view. -/
theorem Laid.parentsPairOnce (hparent : plan.Laid .parent left incoming first middle parent)
    (hchild : plan.Laid .child (.table spec) parent.id middle last child)
    (hjoin : plan.HasJoin parent child multiplicity last next join shown) :
    plan.ParentsPairOnce db join := by
  intro a ha
  rw [hjoin.parent_eq] at ha
  rw [hjoin.child_eq]
  refine length_le_one_of_pairwise (hchild.pairwise_numbered.sublist List.filter_sublist) ?_
  intro b hb b' hb' hnumbered
  obtain ⟨hmem, hagree⟩ := List.mem_filter.mp hb
  obtain ⟨hmem', hagree'⟩ := List.mem_filter.mp hb'
  have hwithin := hparent.rows_within db a ha
  obtain ⟨hkey, -, hrow⟩ :=
    hparent.reads_of_agree hchild hjoin hwithin (hchild.rows_within db b hmem) hagree
  obtain ⟨hkey', -, hrow'⟩ :=
    hparent.reads_of_agree hchild hjoin hwithin (hchild.rows_within db b' hmem') hagree'
  exact hnumbered (hkey.symm.trans hkey') (hrow.symm.trans hrow')

/-- A pair with a left row shows the ids and the number of that row, whether or not the row has a
partner. -/
theorem Laid.reads_joined_left (hparent : plan.Laid .parent left incoming first middle parent)
    (hchild : plan.Laid .child right parent.id middle last child)
    (hjoin : plan.HasJoin parent child multiplicity last next join shown)
    {pair : Option (Tuple T V) × Option (Tuple T V)} (hpair : pair ∈ plan.pairs db join)
    {a : Tuple T V} (ha : pair.1 = some a) :
    plan.reads join.id (plan.joined join (plan.pairs db join) pair) = plan.reads parent.id a ∧
      plan.read (plan.joined join (plan.pairs db join) pair) join.rowNumber =
        plan.read a parent.rowNumber := by
  have hsides := hparent.sidesWithin db hchild hjoin hpair
  obtain ⟨_, partner⟩ := pair
  obtain rfl : _ = some a := ha
  have hid : plan.reads parent.id (Tuple.merge (some a, partner)) = plan.reads parent.id a :=
    List.map_congr_left fun column hc => hparent.read_parent hsides (by simp [hc])
  rw [hjoin.reads_id (hparent.front hchild), hid, hjoin.read_rowNumber,
    hparent.read_parent_rowNumber hsides, hchild.read_child_rowNumber hsides]
  refine ⟨rfl, ?_⟩
  cases partner with
  | none => exact greatest_none_right _
  | some b =>
      have hagree : plan.agree join.conditions a b := by
        rcases mem_fullOuter.mp hpair with ⟨_, -, _, -, hon, heq⟩ | ⟨_, -, -, heq⟩ | ⟨_, -, -, heq⟩
        · cases heq
          exact hon
        · cases heq
        · cases heq
      obtain ⟨-, -, hrow⟩ :=
        hparent.reads_of_agree hchild hjoin (hsides.1 a rfl) (hsides.2 b rfl) hagree
      rw [Option.bind_some, ← hrow, greatest_same]

theorem Laid.none_mem_reads_joined (hparent : plan.Laid .parent left incoming first middle parent)
    (hid : parent.id ≠ []) (hchild : plan.Laid .child right parent.id middle last child)
    (hjoin : plan.HasJoin parent child multiplicity last next join shown)
    {pair : Option (Tuple T V) × Option (Tuple T V)} (hpair : pair ∈ plan.pairs db join)
    (hnone : pair.1 = none) :
    none ∈ plan.reads join.id (plan.joined join (plan.pairs db join) pair) := by
  obtain ⟨column, hc⟩ := List.exists_mem_of_ne_nil _ hid
  rw [hjoin.reads_id (hparent.front hchild), reads, List.mem_map]
  refine ⟨column, hc, ?_⟩
  rw [hparent.read_parent (hparent.sidesWithin db hchild hjoin hpair) (by simp [hc]), hnone,
    Option.bind_none]

/-- If all child sides along the parent sides are views, all rows are told apart. -/
theorem Laid.pairwise_not_alike (hdb : plan.Consistent db)
    (h : plan.Laid .parent tree incoming first last operand) (hflat : tree.Flat)
    (hid : tree.rootSpec.id.isSome) :
    (plan.rows db operand.select).Pairwise fun a b => ¬plan.Alike operand a b := by
  generalize hside : Side.parent = side at h
  induction h with
  | @scan spec incoming first next scan hscan =>
      obtain ⟨id, hscanId⟩ := hscan.exists_id hid
      have hdeclares : plan.DeclaresId scan.table id := ⟨_, scan, hscan.scanAt, rfl, hscanId⟩
      have hidColumns := TableScan.idColumns_of_id hscanId
      have hmem := TableScan.id_mem_allColumns hscanId
      rw [TableScan.operand, rows_scan hscan.select, scanRows, List.pairwise_iff_getElem]
      intro i j hi hj hlt halike
      rw [List.length_mapIdx] at hi hj
      have heq := halike.id
      simp only [List.getElem_mapIdx, hidColumns, reads, List.map_singleton,
        hscan.read_scanRow _ _ hmem, List.cons.injEq, and_true] at heq
      exact hlt.ne (hdb.position_unique hdeclares (List.getElem?_eq_getElem hi)
        (List.getElem?_eq_getElem hj) heq)
  | view => cases hside
  | @join side left right incoming shown first middle last next parent child multiplicity owner join
      hparent hne hchild hjoin ihp _ =>
      cases right with
      | join => exact hflat.elim
      | table spec =>
          have hleft := ihp hflat hid rfl
          rw [← hjoin.parent_eq] at hleft
          rw [PlanJoin.operand, hparent.rows_eq db hchild hjoin, List.pairwise_map]
          refine pairwise_fullOuter (hparent.parentsPairOnce hchild hjoin) ?_
            fun x hx y hy hnone halike => ?_
          · refine hleft.imp fun hnot x hx y hy ha ha' halike => hnot ?_
            have hx := hparent.reads_joined_left hchild hjoin hx ha
            have hy := hparent.reads_joined_left hchild hjoin hy ha'
            exact
              { id := hx.1.symm.trans (halike.id.trans hy.1)
                present := hx.1 ▸ halike.present
                rowNumber := hx.2.symm.trans (halike.rowNumber.trans hy.2) }
          · have habsent := hparent.none_mem_reads_joined hne hchild hjoin hy hnone
            exact halike.present (halike.id.symm ▸ habsent)

/-- If all child sides along the parent side are views, every row of the child side has at most one
partner. -/
theorem Laid.childrenPairOnce (hdb : plan.Consistent db)
    (hparent : plan.Laid .parent left incoming first middle parent) (hflat : left.Flat)
    (hid : left.rootSpec.id.isSome) (hchild : plan.Laid .child right parent.id middle last child)
    (hjoin : plan.HasJoin parent child multiplicity last next join shown) :
    plan.ChildrenPairOnce db join := by
  intro b hb
  rw [hjoin.child_eq] at hb
  rw [hjoin.parent_eq]
  refine length_le_one_of_pairwise
    ((hparent.pairwise_not_alike hdb hflat hid).sublist List.filter_sublist) ?_
  intro a ha a' ha' hnot
  obtain ⟨hmem, hagree⟩ := List.mem_filter.mp ha
  obtain ⟨hmem', hagree'⟩ := List.mem_filter.mp ha'
  have hwithin := hchild.rows_within db b hb
  obtain ⟨hkey, hpresent, hrow⟩ :=
    hparent.reads_of_agree hchild hjoin (hparent.rows_within db a hmem) hwithin hagree
  obtain ⟨hkey', -, hrow'⟩ :=
    hparent.reads_of_agree hchild hjoin (hparent.rows_within db a' hmem') hwithin hagree'
  exact hnot ⟨hkey.trans hkey'.symm, hpresent, hrow.trans hrow'.symm⟩

end Plan

end FlatAggregate
