import FlatAggregate.Proofs.Rows.Partners
import FlatAggregate.Proofs.Rows.Strays
import Mathlib.Data.List.Flatten

/-!
# Twins

In `twins` every table has one row, the first of its family, and one table that has children has a
second row of the same family. The row of the table above is the parent of both, but the branch does
not number them: a scan has the row number 1 on every row, and a join takes the greatest of the row
numbers of its sides. So both have the key and the number of one row above, and match it.

A join whose child side is a join thus lets a row of the parent side match two rows, and from then
on that row stands twice in the rows of the joins above, where one row of a further child matches
it twice (`pairsOneToOne_iff`).
-/

namespace FlatAggregate

variable {T C V : Type}

section Lists

variable {α β : Type} {on : α → β → Bool} {left : List α} {right : List β}

/-- The rows of part of the left side make up part of the pairs. -/
theorem sublist_fullOuter {rows : List α} (h : rows.Sublist left) :
    (rows.flatMap (withPartners on right)).Sublist (fullOuter on left right) :=
  (h.flatMap _).trans (List.sublist_append_left _ _)

theorem exists_mem_withPartners (on : α → β → Bool) (right : List β) (a : α) :
    ∃ pair ∈ withPartners on right a, pair.1 = some a := by
  by_cases h : ∃ b ∈ right, on a b
  · obtain ⟨b, hb, hon⟩ := h
    exact ⟨(some a, some b), mem_withPartners.mpr (.inl ⟨b, hb, hon, rfl⟩), rfl⟩
  · refine ⟨(some a, none), mem_withPartners.mpr (.inr ⟨?_, rfl⟩), rfl⟩
    exact fun b hb hon => h ⟨b, hb, hon⟩

theorem length_le_length_fullOuter : left.length ≤ (fullOuter on left right).length := by
  have hpairs : left.length ≤ (left.flatMap (withPartners on right)).length := by
    induction left with
    | nil => exact Nat.zero_le _
    | cons a rest ih =>
        obtain ⟨pair, hpair, -⟩ := exists_mem_withPartners on right a
        have hpos := List.length_pos_of_mem hpair
        rw [List.flatMap_cons, List.length_append, List.length_cons]
        omega
  exact hpairs.trans (List.sublist_append_left _ _).length_le

theorem withPartners_of_forall {a : α} (hne : right ≠ []) (h : ∀ b ∈ right, on a b) :
    withPartners on right a = right.map fun b => (some a, some b) := by
  rw [withPartners, List.filter_eq_self.mpr h]
  cases right with
  | nil => exact absurd rfl hne
  | cons b rest => rfl

theorem exists_pairs_of_sublist {a a' : α} (h : [a, a'].Sublist left) :
    ∃ x y, [x, y].Sublist (fullOuter on left right) ∧ x.1 = some a ∧ y.1 = some a' := by
  obtain ⟨x, hx, hxa⟩ := exists_mem_withPartners on right a
  obtain ⟨y, hy, hya⟩ := exists_mem_withPartners on right a'
  refine ⟨x, y, .trans ?_ (sublist_fullOuter h), hxa, hya⟩
  rw [List.flatMap_cons, List.flatMap_singleton]
  exact (List.singleton_sublist.mpr hx).append (List.singleton_sublist.mpr hy)

theorem exists_pairs_of_forall {a : α} (ha : a ∈ left) (hlength : 2 ≤ right.length)
    (h : ∀ b ∈ right, on a b) :
    ∃ x y, [x, y].Sublist (fullOuter on left right) ∧ x.1 = some a ∧ y.1 = some a := by
  match right, hlength with
  | b :: b' :: rest, _ =>
    refine ⟨(some a, some b), (some a, some b'),
      .trans ?_ (sublist_fullOuter (List.singleton_sublist.mpr ha)), rfl, rfl⟩
    rw [List.flatMap_singleton, withPartners_of_forall (by simp) h]
    exact .cons_cons _ (.cons_cons _ (List.nil_sublist _))

end Lists

namespace JoinTree

/-- Some table on the parent sides has a branch whose left-most table is `late`, with children of
its own. -/
def Doubles (late : T) : JoinTree T C → Prop
  | table _ => False
  | join parent (table _) _ _ => parent.Doubles late
  | join parent (join left _ _ _) _ _ => parent.Doubles late ∨ left.rootSpec.table = late

theorem rootSpec_not_mem_leaves {tree : JoinTree T C} (hn : tree.tables.Nodup) :
    tree.rootSpec.table ∉ tree.leaves .parent := by
  induction tree with
  | table spec => exact List.not_mem_nil
  | join parent child m o ihp _ =>
      rw [tables_join] at hn
      rw [leaves, List.mem_append, not_or]
      refine ⟨ihp hn.of_append_left, fun hmem => ?_⟩
      exact List.disjoint_of_nodup_append hn (List.mem_map_of_mem (rootSpec_mem_specs parent))
        (leaves_subset child hmem)

/-- A tree that is not flat is doubled by some table of its own that is no leaf. -/
theorem exists_doubles {tree : JoinTree T C} (hn : tree.tables.Nodup) (h : ¬tree.Flat) :
    ∃ late ∈ tree.tables, late ∉ tree.leaves .parent ∧ tree.Doubles late := by
  induction tree with
  | table spec => exact absurd trivial h
  | join left right m o ihl _ =>
      rw [tables_join] at hn
      cases right with
      | table spec =>
          obtain ⟨late, hmem, hleaf, hdoubles⟩ := ihl hn.of_append_left h
          refine ⟨late, by simp [hmem], ?_, hdoubles⟩
          rw [leaves, List.mem_append, not_or]
          exact ⟨hleaf, fun hmem' => List.disjoint_of_nodup_append hn hmem
            (leaves_subset (table spec) hmem')⟩
      | join left' right' m' o' =>
          have hmem : left'.rootSpec.table ∈ (join left' right' m' o').tables :=
            List.mem_map_of_mem (rootSpec_mem_specs (join left' right' m' o'))
          refine ⟨left'.rootSpec.table, ?_, ?_, .inr rfl⟩
          · rw [tables_join]
            exact List.mem_append_right _ hmem
          · rw [leaves, List.mem_append, not_or]
            exact ⟨fun hleft => List.disjoint_of_nodup_append hn (leaves_subset left hleft) hmem,
              rootSpec_not_mem_leaves hn.of_append_right⟩

end JoinTree

namespace Plan

variable [DecidableEq T] [Domain V]

/-- One row in every table, and a second one of the same family in the table `late`. -/
def twins (plan : Plan T C) (late : T) : Database T V := fun table =>
  (if table = late then [0, 2] else [0]).map plan.familyRow

structure IsTwin (plan : Plan T C) (operand : Operand) (id : Int) (row : Tuple T V) : Prop where
  id : ∀ column ∈ operand.id, plan.read row column = ofNumber id
  foreignKey : ∀ column ∈ operand.foreignKeys, plan.read row column = ofNumber 1
  rowNumber : plan.read row operand.rowNumber = ofNumber 1

variable {plan : Plan T C} {late : T}

omit [DecidableEq T] in
theorem InFamily.isTwin {operand : Operand} {row : Tuple T V} (h : plan.InFamily operand 1 row) :
    plan.IsTwin operand 1 row :=
  ⟨h.id, h.foreignKey, h.rowNumber⟩

theorem Laid.consistent_twins {whole : JoinTree T C} {top : Operand}
    (hplan : plan.Laid .parent whole [] ⟨0, 0⟩ plan.parts.mark top)
    (hids : whole.ParentsDeclareIds) (late : T) :
    plan.Consistent (plan.twins (V := V) late) := by
  refine hplan.consistent_familyRows hids (fun table => ?_) fun table parent position hmem => ?_
  · split <;> decide
  · have hposition : position % 2 = 0 := by
      split at hmem
      · rcases List.mem_cons.mp hmem with rfl | hmem
        · rfl
        · rw [List.mem_singleton.mp hmem]
      · rw [List.mem_singleton.mp hmem]
    rw [hposition]
    split <;> exact List.mem_cons_self

section Scans

variable {spec : TableSpec T C} {incoming : List ColumnId} {mark : Mark} {next : Nat}
  {scan : TableScan T}

omit [DecidableEq T] in
/-- A bare scan numbers no rows: its row number is 1 on every row. -/
theorem HasScan.read_rowNumber (hscan : plan.HasScan spec incoming mark next scan)
    (row : Tuple T V) : plan.read row scan.rowNumber = ofNumber 1 := by
  have hrowNumber := hscan.rowNumber
  have hliteral : plan.columns[plan.canonical scan.rowNumber]? = some (.literal 1) := by
    rw [canonical_of_ne hrowNumber (by simp), hrowNumber]
  exact read_of_literal hliteral

/-- The second row of the table `late` has another id, but the same foreign keys and number. -/
theorem HasScan.isTwin_second (hscan : plan.HasScan spec incoming mark next scan)
    (hid : spec.id.isSome) :
    plan.IsTwin (V := V) (scan.operand mark.select) 3 (scanRow scan 1 (plan.familyRow 2)) where
  id column hc := by
    obtain ⟨id, hscanId⟩ := hscan.exists_id hid
    obtain rfl : column = id := by
      simpa [TableScan.operand, TableScan.idColumns_of_id hscanId] using hc
    obtain ⟨token, -, heq⟩ := hscan.id.exists_source (by simp [hscanId] : column ∈ scan.id.toList)
    rw [hscan.read_scanRow _ _ (scan.idColumns_subset hc), familyRow_base heq]
    rfl
  foreignKey column hc := by
    rw [hscan.read_scanRow _ _ (scan.foreignKeys_subset hc), hscan.read_foreignKey 2 hc]
    rfl
  rowNumber := hscan.read_rowNumber _

theorem scanRows_twins (hne : scan.table ≠ late) :
    scanRows (plan.twins (V := V) late) scan = [scanRow scan 0 (plan.familyRow 0)] := by
  rw [scanRows, twins, if_neg hne]
  rfl

theorem scanRows_twins_late (heq : scan.table = late) :
    scanRows (plan.twins (V := V) late) scan =
      [scanRow scan 0 (plan.familyRow 0), scanRow scan 1 (plan.familyRow 2)] := by
  rw [scanRows, twins, if_pos heq]
  rfl

theorem HasScan.scanRows_isTwin (hscan : plan.HasScan spec incoming mark next scan)
    (hid : spec.id.isSome) :
    (∀ row ∈ scanRows (plan.twins (V := V) late) scan,
      ∃ n, plan.IsTwin (scan.operand mark.select) n row) ∧
    ∃ row ∈ scanRows (plan.twins (V := V) late) scan,
      plan.IsTwin (scan.operand mark.select) 1 row := by
  have hfirst := (hscan.inFamily (V := V) (by decide : 0 < 2)).isTwin
  by_cases heq : scan.table = late
  · rw [scanRows_twins_late heq]
    refine ⟨fun row hrow => ?_, _, List.mem_cons_self, hfirst⟩
    rcases List.mem_cons.mp hrow with rfl | hrow
    · exact ⟨1, hfirst⟩
    · rw [List.mem_singleton.mp hrow]
      exact ⟨3, hscan.isTwin_second hid⟩
  · rw [scanRows_twins heq]
    refine ⟨fun row hrow => ?_, _, List.mem_cons_self, hfirst⟩
    rw [List.mem_singleton.mp hrow]
    exact ⟨1, hfirst⟩

theorem HasScan.rows_view_isTwin (hscan : plan.HasScan spec incoming mark next scan)
    (hview : plan.selects[mark.select + 1]? = some (.view mark.select next))
    (hrowNumber : plan.columns[next]? = some (.rowNumber scan.foreignKeys))
    (hne : scan.table ≠ late) :
    (∀ row ∈ plan.rows (plan.twins (V := V) late) (mark.select + 1),
      ∃ n, plan.IsTwin (scan.viewOperand (mark.select + 1) next) n row) ∧
    ∃ row ∈ plan.rows (plan.twins (V := V) late) (mark.select + 1),
      plan.IsTwin (scan.viewOperand (mark.select + 1) next) 1 row := by
  have hnumber : ∀ row : Tuple T V,
      plan.read (row.withValues [next] (plan.computed [row] 0 row)) next = ofNumber 1 := by
    intro row
    rw [Plan.read_rowNumber hrowNumber]
    simp [rank]
  have hrows : plan.rows (plan.twins (V := V) late) (mark.select + 1) =
      [(scanRow scan 0 (plan.familyRow 0)).withValues [next] (plan.computed
        [scanRow scan 0 (plan.familyRow 0)] 0 (scanRow scan 0 (plan.familyRow 0)))] := by
    rw [rows_view hview (Nat.lt_succ_self _), rows_scan hscan.select, scanRows_twins hne]
    rfl
  have hfirst := (hscan.inFamily_numbered (by decide : 0 < 2) (hnumber _)).isTwin
  rw [hrows]
  refine ⟨fun row hrow => ?_, _, List.mem_cons_self, hfirst⟩
  rw [List.mem_singleton.mp hrow]
  exact ⟨1, hfirst⟩

end Scans

section Joins

variable {left right : JoinTree T C} {incoming shown : List ColumnId} {first middle last : Mark}
  {next : Nat} {parent child : Operand} {multiplicity : Multiplicity} {join : PlanJoin}
  (hparent : plan.Laid .parent left incoming first middle parent) (hid : parent.id ≠ [])
  (hchild : plan.Laid .child right parent.id middle last child)
  (hjoin : plan.HasJoin parent child multiplicity last next join shown)

include hparent hid hchild hjoin

omit [DecidableEq T] in
theorem Laid.agree_twins_iff {a b : Tuple T V} {n m : Int} (ha : a.Within first middle)
    (hb : b.Within middle last) (hleft : plan.IsTwin parent n a) (hright : plan.IsTwin child m b) :
    plan.agree join.conditions a b ↔ n = 1 := by
  have hcompared : ∀ compared ∈ parent.id.zip child.foreignKeys,
      sameValue (plan.read a compared.1) (plan.read b compared.2) ↔ n = 1 := by
    intro compared hc
    obtain ⟨hl, hr⟩ := List.of_mem_zip hc
    rw [hleft.id _ hl, hright.foreignKey _ hr, sameValue_iff, ofNumber_inj]
    simp
  have hrowNumber : sameValue (plan.read a parent.rowNumber) (plan.read b child.rowNumber) := by
    rw [hleft.rowNumber, hright.rowNumber, sameValue_iff]
    simp
  obtain ⟨compared, hc⟩ := hchild.exists_compared hid
  rw [hparent.agree_iff hchild hjoin ha hb]
  constructor
  · exact fun h => (hcompared compared hc).mp (h.1 compared hc)
  · exact fun h => ⟨fun compared hc => (hcompared compared hc).mpr h, hrowNumber⟩

variable {db : Database T V}

omit hid in
/-- If every pair has a twin on the left, a join makes of each pair a twin with the same id. -/
theorem Laid.isTwin_joined
    (hleft : ∀ pair ∈ plan.pairs db join, ∃ a n, pair.1 = some a ∧ plan.IsTwin parent n a)
    {pair : Option (Tuple T V) × Option (Tuple T V)} (hpair : pair ∈ plan.pairs db join)
    {a : Tuple T V} {n : Int} (ha : pair.1 = some a) (htwin : plan.IsTwin parent n a)
    (hright : ∀ b, pair.2 = some b → ∃ m, plan.IsTwin child m b) :
    plan.IsTwin (join.operand last.select) n (plan.joined join (plan.pairs db join) pair) := by
  have hfront := hparent.front hchild
  have hsides := hparent.sidesWithin db hchild hjoin hpair
  refine ⟨fun column hc => ?_, fun column hc => ?_, ?_⟩
  · have hmem := List.mem_map_of_mem
      (f := plan.read (plan.joined join (plan.pairs db join) pair)) hc
    rw [← reads, PlanJoin.operand, hjoin.reads_id hfront] at hmem
    obtain ⟨source, hs, heq⟩ := List.mem_map.mp hmem
    rw [← heq, hparent.read_parent hsides (by simp [hs]), ha, Option.bind_some, htwin.id source hs]
  · -- the maximum is over foreign keys that are all 1
    have hvalues : ∀ source ∈ parent.foreignKeys, ∀ other ∈ plan.pairs db join,
        plan.read (Tuple.merge other) source = ofNumber 1 := by
      intro source hs other hother
      obtain ⟨a, n, ha, htwin⟩ := hleft other hother
      rw [hparent.read_parent (hparent.sidesWithin db hchild hjoin hother) (by simp [hs]), ha,
        Option.bind_some, htwin.foreignKey source hs]
    have hmem := List.mem_map_of_mem
      (f := plan.read (plan.joined join (plan.pairs db join) pair)) hc
    rw [← reads, PlanJoin.operand, hjoin.reads_foreignKeys hfront] at hmem
    obtain ⟨source, hs, heq⟩ := List.mem_map.mp hmem
    rw [← heq, spread_map (plan.pairs db join) _ fun other => plan.read (Tuple.merge other) source]
    refine greatest_eq_of_forall (List.mem_map.mpr ⟨pair, ?_, hvalues source hs pair hpair⟩) ?_
    · exact List.mem_filter.mpr ⟨hpair, decide_eq_true rfl⟩
    · intro w hw
      obtain ⟨other, hother, hvalue⟩ := List.mem_map.mp hw
      exact Option.some.inj
        (hvalue.symm.trans (hvalues source hs other (List.mem_of_mem_filter hother)))
  · obtain ⟨_, partner⟩ := pair
    obtain rfl : _ = some a := ha
    rw [PlanJoin.operand, hjoin.read_rowNumber, hparent.read_parent_rowNumber hsides,
      hchild.read_child_rowNumber hsides, htwin.rowNumber]
    cases partner with
    | none => exact greatest_none_right _
    | some b =>
        obtain ⟨m, hb⟩ := hright b rfl
        rw [Option.bind_some, hb.rowNumber, greatest_same]

variable (hleft : ∀ row ∈ plan.rows db parent.select, ∃ n, plan.IsTwin parent n row)
  (hright : ∀ row ∈ plan.rows db child.select, ∃ n, plan.IsTwin child n row)
  {a : Tuple T V} (ha : a ∈ plan.rows db parent.select) (hfirst : plan.IsTwin parent 1 a)

include hleft hright ha hfirst

omit hleft in
theorem Laid.agree_first {b : Tuple T V} (hb : b ∈ plan.rows db child.select) :
    plan.agree join.conditions a b := by
  obtain ⟨m, htwin⟩ := hright b hb
  exact (hparent.agree_twins_iff hid hchild hjoin (hparent.rows_within db a ha)
    (hchild.rows_within db b hb) hfirst htwin).mpr rfl

theorem Laid.exists_left {pair : Option (Tuple T V) × Option (Tuple T V)}
    (hpair : pair ∈ plan.pairs db join) :
    ∃ a n, pair.1 = some a ∧ plan.IsTwin parent n a := by
  rw [pairs, hjoin.parent_eq, hjoin.child_eq] at hpair
  rcases mem_fullOuter.mp hpair with ⟨a, ha, b, -, -, rfl⟩ | ⟨a, ha, -, rfl⟩ | ⟨b, hb, hno, rfl⟩
  · obtain ⟨n, htwin⟩ := hleft a ha
    exact ⟨a, n, rfl, htwin⟩
  · obtain ⟨n, htwin⟩ := hleft a ha
    exact ⟨a, n, rfl, htwin⟩
  · exact absurd (hparent.agree_first hid hchild hjoin hright ha hfirst hb) (hno a ha)

/-- A join of twins makes a twin of every pair, with the id of the left row. -/
theorem Laid.isTwin_of_mem_pairs {pair : Option (Tuple T V) × Option (Tuple T V)}
    (hpair : pair ∈ plan.pairs db join) {l : Tuple T V} {n : Int} (hl : pair.1 = some l)
    (htwin : plan.IsTwin parent n l) :
    plan.IsTwin (join.operand last.select) n (plan.joined join (plan.pairs db join) pair) := by
  refine hparent.isTwin_joined hchild hjoin (fun other hother => ?_) hpair hl htwin fun b hb => ?_
  · exact hparent.exists_left hid hchild hjoin hleft hright ha hfirst hother
  · exact hright b (hjoin.child_eq ▸ right_of_mem_fullOuter hpair hb)

end Joins

section Trees

variable {side : Side} {tree left right : JoinTree T C} {incoming shown : List ColumnId}
  {first middle last : Mark} {next : Nat} {operand parent child : Operand}
  {multiplicity : Multiplicity} {join : PlanJoin}

/-- If `late` is no leaf, all rows of a tree are twins, and one has the id 1. -/
theorem Laid.rows_twins (h : plan.Laid side tree incoming first last operand)
    (hlate : late ∉ tree.leaves side) (hids : tree.ParentsDeclareIds)
    (hroot : side = .parent → tree.rootSpec.id.isSome) :
    (∀ row ∈ plan.rows (plan.twins (V := V) late) operand.select,
      ∃ n, plan.IsTwin operand n row) ∧
    ∃ row ∈ plan.rows (plan.twins (V := V) late) operand.select, plan.IsTwin operand 1 row := by
  induction h with
  | scan hscan =>
      rw [TableScan.operand, rows_scan hscan.select]
      exact hscan.scanRows_isTwin (hroot rfl)
  | view hscan hview hrowNumber =>
      refine hscan.rows_view_isTwin hview hrowNumber fun htable => hlate ?_
      rw [← htable, hscan.table]
      exact List.mem_cons_self
  | @join side left right incoming shown first middle last next parent child multiplicity owner join
      hparent hid hchild hjoin ihp ihc =>
      rw [JoinTree.leaves, List.mem_append, not_or] at hlate
      obtain ⟨hleft, a, ha, hfirst⟩ := ihp hlate.1 hids.2.1 fun _ => hids.1
      obtain ⟨hright, b, hb, -⟩ := ihc hlate.2 hids.2.2 (by simp)
      rw [PlanJoin.operand, hparent.rows_eq _ hchild hjoin]
      constructor
      · intro row hrow
        obtain ⟨pair, hpair, rfl⟩ := List.mem_map.mp hrow
        obtain ⟨l, n, hl, htwin⟩ :=
          hparent.exists_left hid hchild hjoin hleft hright ha hfirst hpair
        exact ⟨n, hparent.isTwin_of_mem_pairs hid hchild hjoin hleft hright ha hfirst hpair hl
          htwin⟩
      · rw [← hjoin.parent_eq] at ha
        obtain ⟨pair, hpair, hl⟩ := exists_mem_pairs_left _ ha
        rw [hjoin.parent_eq] at ha
        exact ⟨_, List.mem_map_of_mem hpair, hparent.isTwin_of_mem_pairs hid hchild hjoin hleft
          hright ha hfirst hpair hl hfirst⟩

theorem Laid.two_le_length_twins (h : plan.Laid side tree incoming first last operand)
    (hroot : tree.rootSpec.table = late) (hlate : late ∉ tree.leaves side) :
    2 ≤ (plan.rows (plan.twins (V := V) late) operand.select).length := by
  induction h with
  | @scan spec incoming first next scan hscan =>
      rw [TableScan.operand, rows_scan hscan.select,
        scanRows_twins_late (hscan.table.trans hroot)]
      exact Nat.le_refl 2
  | view => exact absurd (hroot ▸ List.mem_cons_self) hlate
  | @join side left right incoming shown first middle last next parent child multiplicity owner join
      hparent hid hchild hjoin ihp _ =>
      rw [JoinTree.leaves, List.mem_append, not_or] at hlate
      rw [PlanJoin.operand, hparent.rows_eq _ hchild hjoin, List.length_map, pairs,
        hjoin.parent_eq]
      exact (ihp hroot hlate.1).trans length_le_length_fullOuter

theorem Laid.exists_twins (h : plan.Laid side tree incoming first last operand)
    (hlate : late ∉ tree.leaves side) (hids : tree.ParentsDeclareIds)
    (hdoubles : tree.Doubles late) :
    ∃ a a', [a, a'].Sublist (plan.rows (plan.twins (V := V) late) operand.select) ∧
      plan.IsTwin operand 1 a ∧ plan.IsTwin operand 1 a' := by
  induction h with
  | scan => exact hdoubles.elim
  | view => exact hdoubles.elim
  | @join side left right incoming shown first middle last next parent child multiplicity owner join
      hparent hid hchild hjoin ihp _ =>
      rw [JoinTree.leaves, List.mem_append, not_or] at hlate
      obtain ⟨hleft, a, ha, hfirst⟩ :=
        hparent.rows_twins (V := V) hlate.1 hids.2.1 fun _ => hids.1
      obtain ⟨hright, -⟩ := hchild.rows_twins (V := V) hlate.2 hids.2.2 (by simp)
      -- it is enough to find two pairs
      suffices hpairs : ∃ x y l l', [x, y].Sublist (plan.pairs (plan.twins (V := V) late) join) ∧
          x.1 = some l ∧ y.1 = some l' ∧ plan.IsTwin parent 1 l ∧ plan.IsTwin parent 1 l' by
        obtain ⟨x, y, l, l', hsub, hx, hy, hl, hl'⟩ := hpairs
        refine ⟨_, _, ?_,
          hparent.isTwin_of_mem_pairs hid hchild hjoin hleft hright ha hfirst
            (hsub.subset (by simp)) hx hl,
          hparent.isTwin_of_mem_pairs hid hchild hjoin hleft hright ha hfirst
            (hsub.subset (by simp)) hy hl'⟩
        rw [PlanJoin.operand, hparent.rows_eq _ hchild hjoin]
        exact hsub.map (plan.joined join _)
      have hbranch : left.Doubles late ∨ right.rootSpec.table = late := by
        cases right with
        | table spec => exact .inl hdoubles
        | join => exact hdoubles
      rw [pairs, hjoin.parent_eq, hjoin.child_eq]
      rcases hbranch with hdoubles | hroot
      · obtain ⟨l, l', hsub, hl, hl'⟩ := ihp hlate.1 hids.2.1 hdoubles
        obtain ⟨x, y, hpairs, hx, hy⟩ := exists_pairs_of_sublist hsub
        exact ⟨x, y, l, l', hpairs, hx, hy, hl, hl'⟩
      · -- one row with the id 1 matches both rows of the branch
        have hlength := hchild.two_le_length_twins (V := V) hroot hlate.2
        obtain ⟨x, y, hpairs, hx, hy⟩ := exists_pairs_of_forall ha hlength fun b =>
          hparent.agree_first hid hchild hjoin hright ha hfirst
        exact ⟨x, y, a, a, hpairs, hx, hy, hfirst, hfirst⟩

end Trees

section Joins

variable {left right : JoinTree T C} {incoming shown : List ColumnId} {first middle last : Mark}
  {next : Nat} {parent child : Operand} {multiplicity : Multiplicity} {join : PlanJoin}
  (hparent : plan.Laid .parent left incoming first middle parent) (hid : parent.id ≠ [])
  (hchild : plan.Laid .child right parent.id middle last child)
  (hjoin : plan.HasJoin parent child multiplicity last next join shown)
  (hroot : left.rootSpec.id.isSome) (hleftIds : left.ParentsDeclareIds)
  (hrightIds : right.ParentsDeclareIds)

include hparent hid hchild hjoin hroot hleftIds hrightIds

/-- If the child side is a join, a row of the parent side matches both rows of its left-most
table. -/
theorem Laid.not_parentsPairOnce (hlate : late ∉ left.leaves .parent)
    (hlate' : late ∉ right.leaves .child) (htable : right.rootSpec.table = late) :
    ¬plan.ParentsPairOnce (plan.twins (V := V) late) join := by
  intro honce
  obtain ⟨-, a, ha, hfirst⟩ := hparent.rows_twins (V := V) hlate hleftIds fun _ => hroot
  obtain ⟨hright, -⟩ := hchild.rows_twins (V := V) hlate' hrightIds (by simp)
  have hone := honce a (hjoin.parent_eq ▸ ha)
  rw [hjoin.child_eq, List.filter_eq_self.mpr fun b =>
    hparent.agree_first hid hchild hjoin hright ha hfirst] at hone
  exact Nat.not_succ_le_self 1 ((hchild.two_le_length_twins htable hlate').trans hone)

omit hroot in
/-- If the parent side is doubled, a row of the child side matches two rows of it. -/
theorem Laid.not_childrenPairOnce (hlate : late ∉ left.leaves .parent)
    (hlate' : late ∉ right.leaves .child) (hdoubles : left.Doubles late) :
    ¬plan.ChildrenPairOnce (plan.twins (V := V) late) join := by
  intro honce
  obtain ⟨hright, b, hb, -⟩ := hchild.rows_twins (V := V) hlate' hrightIds (by simp)
  obtain ⟨a, a', hsub, hfirst, hfirst'⟩ := hparent.exists_twins (V := V) hlate hleftIds hdoubles
  have hagree := hparent.agree_first hid hchild hjoin hright (hsub.subset (by simp)) hfirst hb
  have hagree' := hparent.agree_first hid hchild hjoin hright (hsub.subset (by simp)) hfirst' hb
  have htwo := (hsub.filter fun l => plan.agree join.conditions l b).length_le
  rw [List.filter_eq_self.mpr (by simp [hagree, hagree'])] at htwo
  have hone := honce b (hjoin.child_eq ▸ hb)
  rw [hjoin.parent_eq] at hone
  exact Nat.not_succ_le_self 1 (htwo.trans hone)

end Joins

end Plan

end FlatAggregate
