import FlatAggregate.Proofs.Plan.Exposure
import FlatAggregate.Proofs.Rows.Joining

/-!
# The provenance of values

A row of a select has, in the columns of each table below the select, either nothing or the values
of one row of that table, the row's source; and every row of the table is the source of some row.
Nothing is assumed of ids and foreign keys: a full outer join keeps the rows of both of its sides,
whatever its conditions say about them.

The sources of a row are rows of tables of its own tree. As no table stands twice, a table has rows
on one side of a join only, and what a pair has of it is what the row of that side has.
-/

namespace FlatAggregate

variable {T C V : Type}

/-- A row has, in the columns of a scan, the values of the table's row that is its source, or no
values if there is none. -/
structure Tuple.Carries (db : Database T V) (scan : TableScan T) (row : Tuple T V) : Prop where
  stored : ∀ position, row.source scan.table = some position →
    ∃ own, (db scan.table)[position]? = some own ∧
      ∀ column ∈ scan.allColumns, row.value column = own column
  padded : row.source scan.table = none → ∀ column ∈ scan.allColumns, row.value column = none

/-- A row that has of a table what an optional other row has carries what that one carries. -/
theorem Tuple.Carries.of_side {db : Database T V} {scan : TableScan T} {row : Tuple T V}
    (side : Option (Tuple T V))
    (hsource : row.source scan.table = side.bind (·.source scan.table))
    (hvalue : ∀ column ∈ scan.allColumns, row.value column = side.bind (·.value column))
    (h : ∀ other, side = some other → other.Carries db scan) : row.Carries db scan := by
  cases side with
  | none => exact ⟨fun position hp => (by rw [hsource] at hp; cases hp), fun _ => hvalue⟩
  | some other =>
      have hother := h other rfl
      constructor
      · intro position hp
        obtain ⟨own, hown, heq⟩ := hother.stored position (hsource.symm.trans hp)
        exact ⟨own, hown, fun column hc => (hvalue column hc).trans (heq column hc)⟩
      · exact fun hnone column hc =>
          (hvalue column hc).trans (hother.padded (hsource.symm.trans hnone) column hc)

theorem Plan.scanRow_carries [DecidableEq T] {db : Database T V} {scan : TableScan T}
    {position : Nat} {own : ColumnId → Option V} (h : (db scan.table)[position]? = some own) :
    (scanRow scan position own).Carries db scan where
  stored place hplace := by
    obtain rfl : position = place := by simpa [scanRow] using hplace
    exact ⟨own, h, fun column hc => if_pos hc⟩
  padded hnone := by simp [scanRow] at hnone

namespace Plan

variable [Domain V] [DecidableEq T] {plan : Plan T C} {db : Database T V}

/-- The rows of a select carry what a table stores, and all of it. -/
structure Preserves (plan : Plan T C) (db : Database T V) (select : SelectId)
    (scan : TableScan T) : Prop where
  kept : ∀ position < (db scan.table).length,
    ∃ row ∈ plan.rows db select, row.source scan.table = some position
  carried : ∀ row ∈ plan.rows db select, row.Carries db scan

section Scans

variable {spec : TableSpec T C} {incoming : List ColumnId} {mark : Mark} {next : Nat}
  {scan : TableScan T}

theorem HasScan.preserves (hscan : plan.HasScan spec incoming mark next scan)
    (db : Database T V) : plan.Preserves db mark.select scan := by
  constructor <;> rw [rows_scan hscan.select]
  · intro position hlt
    refine ⟨_, (mem_scanRows db).mpr ⟨position, _, List.getElem?_eq_getElem hlt, rfl⟩, ?_⟩
    exact if_pos rfl
  · intro row hrow
    obtain ⟨position, own, hown, rfl⟩ := (mem_scanRows db).mp hrow
    exact scanRow_carries hown

theorem HasScan.preserves_view (hscan : plan.HasScan spec incoming mark next scan)
    (hview : plan.selects[mark.select + 1]? = some (.view mark.select next))
    (db : Database T V) : plan.Preserves db (mark.select + 1) scan := by
  have hpreserves := hscan.preserves db
  have hnew : ∀ column ∈ scan.allColumns, column ∉ [next] := fun column hc hnext =>
    (hscan.within hc).2.ne (List.mem_singleton.mp hnext)
  constructor <;> rw [rows_view hview (Nat.lt_succ_self _), compute]
  · intro position hlt
    obtain ⟨row, hrow, hsource⟩ := hpreserves.kept position hlt
    obtain ⟨place, hplace, rfl⟩ := List.mem_iff_getElem.mp hrow
    exact ⟨_, List.mem_mapIdx.mpr ⟨place, hplace, rfl⟩, hsource⟩
  · intro row hrow
    obtain ⟨place, hplace, rfl⟩ := List.mem_mapIdx.mp hrow
    refine .of_side (some (plan.rows db mark.select)[place]) rfl (fun column hc => ?_) ?_
    · exact Tuple.value_withValues_of_not_mem (hnew column hc)
    · exact fun other heq => Option.some.inj heq ▸ hpreserves.carried _ (List.getElem_mem hplace)

end Scans

section Trees

variable {side : Side} {tree left right : JoinTree T C} {incoming shown : List ColumnId}
  {first middle last : Mark} {next : Nat} {operand parent child : Operand}
  {multiplicity : Multiplicity} {join : PlanJoin} {select : SelectId} {scan : TableScan T}

theorem Laid.mem_tables_of_source (h : plan.Laid side tree incoming first last operand) :
    ∀ row ∈ plan.rows db operand.select, ∀ table, row.source table ≠ none →
      table ∈ tree.tables := by
  induction h with
  | @scan spec incoming first next scan hscan =>
      intro row hrow table hsource
      rw [TableScan.operand, rows_scan hscan.select] at hrow
      obtain ⟨position, own, -, rfl⟩ := (mem_scanRows db).mp hrow
      have heq : table = scan.table := by
        by_contra hne
        exact hsource (if_neg hne)
      rw [heq, hscan.table, JoinTree.tables_table]
      exact List.mem_cons_self
  | @view spec incoming first next scan hscan hview hrowNumber =>
      intro row hrow table hsource
      obtain ⟨position, own, -, heq, -⟩ := hscan.of_mem_view db hview hrow
      have heq : table = scan.table := by
        by_contra hne
        rw [heq] at hsource
        exact hsource (if_neg hne)
      rw [heq, hscan.table, JoinTree.tables_table]
      exact List.mem_cons_self
  | @join side left right incoming shown first middle last next parent child multiplicity owner join
      hparent _ hchild hjoin ihp ihc =>
      intro row hrow table hsource
      rw [PlanJoin.operand, hparent.rows_eq db hchild hjoin] at hrow
      obtain ⟨pair, hpair, rfl⟩ := List.mem_map.mp hrow
      rw [pairs, hjoin.parent_eq, hjoin.child_eq] at hpair
      change (Tuple.merge pair).source table ≠ none at hsource
      obtain ⟨position, hposition⟩ := Option.ne_none_iff_exists'.mp hsource
      rw [Tuple.source_merge, Option.or_eq_some_iff] at hposition
      rw [JoinTree.tables_join, List.mem_append]
      rcases hposition with hleft | ⟨-, hright⟩
      · obtain ⟨a, ha, hsource⟩ := Option.bind_eq_some_iff.mp hleft
        exact .inl (ihp a (left_of_mem_fullOuter hpair ha) table (by simp [hsource]))
      · obtain ⟨b, hb, hsource⟩ := Option.bind_eq_some_iff.mp hright
        exact .inr (ihc b (right_of_mem_fullOuter hpair hb) table (by simp [hsource]))

/-- The rows of a select have no source in a table that is not below it. -/
theorem Laid.bind_source_eq_none (h : plan.Laid side tree incoming first last operand)
    {part : Option (Tuple T V)} (hpart : ∀ row, part = some row → row ∈ plan.rows db operand.select)
    {table : T} (htable : table ∉ tree.tables) : part.bind (·.source table) = none := by
  by_contra hne
  obtain ⟨position, hposition⟩ := Option.ne_none_iff_exists'.mp hne
  obtain ⟨row, hrow, hsource⟩ := Option.bind_eq_some_iff.mp hposition
  exact htable (h.mem_tables_of_source row (hpart row hrow) table (by simp [hsource]))

/-- A join preserves a table, if `part` is the side of each pair that has the rows of the table. -/
theorem Laid.preserves_joined (hparent : plan.Laid .parent left incoming first middle parent)
    (hchild : plan.Laid .child right parent.id middle last child)
    (hjoin : plan.HasJoin parent child multiplicity last next join shown)
    (part : Option (Tuple T V) × Option (Tuple T V) → Option (Tuple T V)) {operand : SelectId}
    (hpreserves : plan.Preserves db operand scan)
    (hfront : ∀ column ∈ scan.allColumns, column < last.column)
    (hkept : ∀ row ∈ plan.rows db operand, ∃ pair ∈ plan.pairs db join, part pair = some row)
    (hpart : ∀ pair ∈ plan.pairs db join, (∀ row, part pair = some row →
        row ∈ plan.rows db operand) ∧
      (Tuple.merge pair).source scan.table = (part pair).bind (·.source scan.table) ∧
      ∀ column ∈ scan.allColumns,
        (Tuple.merge pair).value column = (part pair).bind (·.value column)) :
    plan.Preserves db last.select scan := by
  have hown : ∀ column ∈ scan.allColumns, column ∉ join.ownColumns := fun column hc hown =>
    Nat.not_lt_of_le (hjoin.mem_range (List.mem_append_left shown
      (List.mem_append_left join.id hown))).1 (hfront column hc)
  constructor <;> rw [hparent.rows_eq db hchild hjoin]
  · intro position hlt
    obtain ⟨row, hrow, heq⟩ := hpreserves.kept position hlt
    obtain ⟨pair, hpair, hside⟩ := hkept row hrow
    obtain ⟨-, hsource, -⟩ := hpart pair hpair
    refine ⟨_, List.mem_map_of_mem hpair, hsource.trans ?_⟩
    rw [hside, Option.bind_some, heq]
  · intro row hrow
    obtain ⟨pair, hpair, rfl⟩ := List.mem_map.mp hrow
    obtain ⟨hmem, hsource, hvalue⟩ := hpart pair hpair
    refine .of_side (part pair) hsource (fun column hc => ?_) ?_
    · exact (value_joined_of_not_mem (hown column hc)).trans (hvalue column hc)
    · exact fun other hside => hpreserves.carried other (hmem other hside)

theorem Laid.preserves (h : plan.Laid side tree incoming first last operand)
    (hn : tree.tables.Nodup) (hfirst : first.select ≤ select) (hlast : select < last.select)
    (hscan : plan.scanAt select = some scan) : plan.Preserves db operand.select scan := by
  induction h with
  | @scan spec incoming first next scan' hscan' =>
      obtain rfl : select = first.select := Nat.le_antisymm (Nat.le_of_lt_succ hlast) hfirst
      obtain rfl : scan' = scan := Option.some.inj (hscan'.scanAt.symm.trans hscan)
      exact hscan'.preserves db
  | @view spec incoming first next scan' hscan' hview hrowNumber =>
      rcases Nat.eq_or_lt_of_le hfirst with rfl | hlt
      · obtain rfl : scan' = scan := Option.some.inj (hscan'.scanAt.symm.trans hscan)
        exact hscan'.preserves_view hview db
      · obtain rfl : select = first.select + 1 := Nat.le_antisymm (Nat.le_of_lt_succ hlast) hlt
        simp [scanAt, hview] at hscan
  | @join side left right incoming shown first middle last next parent child multiplicity owner join
      hparent _ hchild hjoin ihp ihc =>
      rw [JoinTree.tables_join, List.nodup_append] at hn
      obtain ⟨hnLeft, hnRight, hdisjoint⟩ := hn
      have hleft : ∀ pair ∈ plan.pairs db join, ∀ row, pair.1 = some row →
          row ∈ plan.rows db parent.select := fun pair hpair row hrow =>
        hjoin.parent_eq ▸ left_of_mem_fullOuter hpair hrow
      have hright : ∀ pair ∈ plan.pairs db join, ∀ row, pair.2 = some row →
          row ∈ plan.rows db child.select := fun pair hpair row hrow =>
        hjoin.child_eq ▸ right_of_mem_fullOuter hpair hrow
      rcases side_of_scanAt hjoin.select hlast hscan middle.select with hlt | ⟨hge, hlt⟩
      · have htable : scan.table ∉ right.tables := fun hmem =>
          hdisjoint _ (hparent.table_mem hfirst hlt hscan) _ hmem rfl
        have hrange : ∀ column ∈ scan.allColumns,
            first.column ≤ column ∧ column < middle.column :=
          fun column hc => hparent.scan_within hfirst hlt hscan hc
        refine hparent.preserves_joined hchild hjoin Prod.fst (ihp hnLeft hfirst hlt)
          (fun column hc => Nat.lt_trans (hrange column hc).2 hchild.room.2.2) (fun row hrow => ?_)
          fun pair hpair => ⟨hleft pair hpair, ?_, fun column hc => ?_⟩
        · rw [← hjoin.parent_eq] at hrow
          exact exists_mem_pairs_left db hrow
        · rw [Tuple.source_merge, hchild.bind_source_eq_none (hright pair hpair) htable,
            Option.or_none]
        · exact Tuple.value_merge_left (hparent.sidesWithin db hchild hjoin hpair)
            (hrange column hc).2
      · have htable : scan.table ∉ left.tables := fun hmem =>
          hdisjoint _ hmem _ (hchild.table_mem hge hlt hscan) rfl
        have hrange : ∀ column ∈ scan.allColumns,
            middle.column ≤ column ∧ column < last.column :=
          fun column hc => hchild.scan_within hge hlt hscan hc
        refine hparent.preserves_joined hchild hjoin Prod.snd (ihc hnRight hge hlt)
          (fun column hc => (hrange column hc).2) (fun row hrow => ?_)
          fun pair hpair => ⟨hright pair hpair, ?_, fun column hc => ?_⟩
        · rw [← hjoin.child_eq] at hrow
          exact exists_mem_pairs_right db hrow
        · rw [Tuple.source_merge, hparent.bind_source_eq_none (hleft pair hpair) htable,
            Option.none_or]
        · exact Tuple.value_merge_right (hparent.sidesWithin db hchild hjoin hpair)
            (hrange column hc).1

end Trees

section Whole

variable {whole : JoinTree T C} {top : Operand} {scan : TableScan T} {row : Tuple T V}

/-- A row of the outermost select shows the stored values of a table's row. -/
def Shows (plan : Plan T C) (row : Tuple T V) (scan : TableScan T)
    (own : ColumnId → Option V) : Prop :=
  ∀ column ∈ plan.exposed scan, plan.read row column = own (plan.canonical column)

omit [DecidableEq T] in
theorem Laid.shows (hplan : plan.Laid .parent whole [] ⟨0, 0⟩ plan.parts.mark top)
    {select : SelectId} (hscan : plan.scanAt select = some scan) {own : ColumnId → Option V}
    (hvalue : ∀ column ∈ scan.allColumns, row.value column = own column) :
    plan.Shows row scan own := by
  intro column hc
  obtain ⟨spec, -, incoming, mark, next, -, hlaid, -⟩ := hplan.exists_hasScan_of_scanAt hscan
  have hmem : plan.canonical column ∈ scan.allColumns := by
    simpa using (List.mem_filter.mp hc).2
  rw [read_of_not_literal (hlaid.not_literal hmem), hvalue _ hmem]

end Whole

end Plan

namespace Draft

variable [DecidableEq T] [ToString T] [Domain V] {root : TableSpec T C}
  {additions : List (Addition T C)} {draft : Draft T C} {plan : Plan T C}

/-- The flat result loses nothing and invents nothing. Every table has a scan, and its columns are
each exposed once. Every row of the table is the source of a row of the result, which shows its
values; and a row of the result shows nothing of the table, or the values of the row of the table
that is its source. -/
theorem shows_sources (h : assemble root additions = .ok draft) (hplan : draft.plan = .ok plan)
    (db : Database T V) :
    (∀ spec ∈ root :: additions.map Addition.spec,
      ∃ select scan, plan.scanAt select = some scan ∧ scan.table = spec.table) ∧
    ∀ select scan, plan.scanAt select = some scan →
      ((plan.exposed scan).map plan.canonical).Perm scan.allColumns ∧
      (∀ position own, (db scan.table)[position]? = some own →
        ∃ row ∈ plan.rows db plan.root, row.source scan.table = some position ∧
          plan.Shows row scan own) ∧
      ∀ row ∈ plan.rows db plan.root,
        (row.source scan.table = none ∧ plan.Shows row scan fun _ => none) ∨
        ∃ position own, row.source scan.table = some position ∧
          (db scan.table)[position]? = some own ∧ plan.Shows row scan own := by
  obtain ⟨top, hlaid, hroot, hn, -⟩ := laid_of_assemble h hplan
  refine ⟨fun spec hspec => hlaid.exists_scanAt ((specs_of_assemble h).mem_iff.mpr hspec),
    fun select scan hscan => ?_⟩
  have hpreserves : plan.Preserves db plan.root scan :=
    hroot ▸ hlaid.preserves hn (Nat.zero_le _) (Plan.lt_of_scanAt hscan) hscan
  refine ⟨hlaid.map_canonical_exposed hroot hscan, fun position own hown => ?_, fun row hrow => ?_⟩
  · obtain ⟨hlt, -⟩ := List.getElem?_eq_some_iff.mp hown
    obtain ⟨row, hrow, hsource⟩ := hpreserves.kept position hlt
    obtain ⟨own', hown', hvalue⟩ := (hpreserves.carried row hrow).stored position hsource
    obtain rfl : own' = own := Option.some.inj (hown'.symm.trans hown)
    exact ⟨row, hrow, hsource, hlaid.shows hscan hvalue⟩
  · have hcarries := hpreserves.carried row hrow
    cases hsource : row.source scan.table with
    | none => exact .inl ⟨rfl, hlaid.shows hscan (hcarries.padded hsource)⟩
    | some position =>
        obtain ⟨own, hown, hvalue⟩ := hcarries.stored position hsource
        exact .inr ⟨position, own, rfl, hown, hlaid.shows hscan hvalue⟩

/-- Duplicate and missing ids and foreign keys without a parent row, in a root with a child and a
grandchild, and a second child. -/
theorem shows_sources_dangling :
    let root : TableSpec Nat Nat := { table := 0, id := some 10, columns := [11] }
    let additions : List (Addition Nat Nat) :=
      [⟨0, .multiple, { table := 1, id := some 20 }⟩, ⟨1, .single, { table := 2, columns := [30] }⟩,
        ⟨0, .multiple, { table := 3, key := some 40 }⟩]
    let db : Database Nat Int := fun table =>
      [fun _ => some 1, fun _ => some 1, fun _ => none, fun _ => some (7 + table)]
    ∃ (draft : Draft Nat Nat) (plan : Plan Nat Nat), assemble root additions = .ok draft ∧
      draft.plan = .ok plan ∧
      (∀ spec ∈ root :: additions.map Addition.spec,
        ∃ select scan, plan.scanAt select = some scan ∧ scan.table = spec.table) ∧
      ∀ select scan, plan.scanAt select = some scan →
        ((plan.exposed scan).map plan.canonical).Perm scan.allColumns ∧
        (∀ position own, (db scan.table)[position]? = some own →
          ∃ row ∈ plan.rows db plan.root, row.source scan.table = some position ∧
            plan.Shows row scan own) ∧
        ∀ row ∈ plan.rows db plan.root,
          (row.source scan.table = none ∧ plan.Shows row scan fun _ => none) ∨
          ∃ position own, row.source scan.table = some position ∧
            (db scan.table)[position]? = some own ∧ plan.Shows row scan own := by
  intro root additions db
  obtain ⟨draft, h⟩ : ∃ draft, assemble root additions = .ok draft := ⟨_, rfl⟩
  obtain ⟨-, plan, hplan⟩ := plan_of_assemble h
  exact ⟨draft, plan, h, hplan, shows_sources h hplan db⟩

end Draft

end FlatAggregate
