import FlatAggregate.Proofs.Builder.Shape
import FlatAggregate.Proofs.Plan.Layout

/-!
# The selects of a built plan

Every scan of a built plan is the scan of one table of its join tree, and its columns belong to no
other scan. Every join is the join of one part of the tree. The left-most table of a select owns the
id columns that the select offers and stores the foreign keys that it receives.

`Plan.leftmost` goes down the parent sides of joins to a scan. `DeclaresId` and `Copies` say of a
table of the plan that it has an id column, or copies one; databases are made consistent with these.
-/

namespace FlatAggregate

variable {T C : Type}

namespace Plan

def leftmost (plan : Plan T C) (select : SelectId) : Option (TableScan T) :=
  match plan.selects[select]? with
  | some (.scan scan) => some scan
  | some (.view table _) => plan.scanAt table
  | some (.join join) => earlier select (fun p _ => plan.leftmost p) none join.parent
  | none => none
termination_by select

def DeclaresId (plan : Plan T C) (table : T) (id : ColumnId) : Prop :=
  ∃ select scan, plan.scanAt select = some scan ∧ scan.table = table ∧ scan.id = some id

def Copies (plan : Plan T C) (table : T) (foreignKey id : ColumnId) : Prop :=
  ∃ select scan references owner, plan.scanAt select = some scan ∧ scan.table = table ∧
    foreignKey ∈ scan.foreignKeys ∧
    plan.columns[foreignKey]? = some (.foreignKey references owner) ∧
    id = plan.canonical references

variable {plan : Plan T C}

theorem leftmost_scan {select : SelectId} {scan : TableScan T}
    (h : plan.selects[select]? = some (.scan scan)) : plan.leftmost select = some scan := by
  rw [leftmost, h]

theorem leftmost_join {select : SelectId} {join : PlanJoin}
    (h : plan.selects[select]? = some (.join join)) (hlt : join.parent < select) :
    plan.leftmost select = plan.leftmost join.parent := by
  rw [leftmost, h]
  exact dif_pos hlt

section Leftmost

variable {side : Side} {tree : JoinTree T C} {incoming : List ColumnId} {first last : Mark}
  {operand : Operand}

theorem Laid.leftmost_eq {left right : JoinTree T C} {middle : Mark} {parent child : Operand}
    {multiplicity : Multiplicity} {next : Nat} {join : PlanJoin} {shown : List ColumnId}
    (hparent : plan.Laid .parent left incoming first middle parent)
    (hchild : plan.Laid .child right parent.id middle last child)
    (hjoin : plan.HasJoin parent child multiplicity last next join shown) :
    plan.leftmost last.select = plan.leftmost parent.select := by
  rw [leftmost_join hjoin.select (hparent.operands_lt hchild hjoin).1, hjoin.parent_eq]

/-- The left-most table stores the foreign keys for the incoming columns. If it declares an id, that
is what the select offers to children. -/
theorem Laid.leftmost (h : plan.Laid side tree incoming first last operand) :
    ∃ mark next scan, plan.leftmost operand.select = some scan ∧
      plan.HasScan tree.rootSpec incoming mark next scan ∧
      ∀ id, scan.id = some id → operand.id.map plan.canonical = [id] := by
  induction h with
  | @scan spec incoming first next scan hscan =>
      refine ⟨first, next, scan, ?_, hscan, ?_⟩
      · exact leftmost_scan hscan.select
      · intro id hid
        simp [TableScan.operand, TableScan.idColumns_of_id hid,
          hscan.canonical_eq (TableScan.id_mem_allColumns hid)]
  | @view spec incoming first next scan hscan hview hrowNumber =>
      refine ⟨first, next, scan, ?_, hscan, ?_⟩
      · rw [Plan.leftmost, TableScan.viewOperand, hview]
        exact hscan.scanAt
      · intro id hid
        simp [TableScan.viewOperand, TableScan.idColumns_of_id hid,
          hscan.canonical_eq (TableScan.id_mem_allColumns hid)]
  | @join side left right incoming shown first middle last next parent child multiplicity owner join
      hparent _ hchild hjoin ihp ihc =>
      obtain ⟨mark, next, scan, hleftmost, hscan, hid⟩ := ihp
      refine ⟨mark, next, scan, ?_, hscan, fun id h => ?_⟩
      · rw [PlanJoin.operand, hparent.leftmost_eq hchild hjoin, hleftmost]
      · exact (hjoin.map_canonical_id (hparent.front hchild)).trans (hid id h)

theorem HasScan.exists_id {spec : TableSpec T C} {mark : Mark} {next : Nat} {scan : TableScan T}
    (h : plan.HasScan spec incoming mark next scan) (hid : spec.id.isSome) :
    ∃ id, scan.id = some id := by
  have hlength := List.Forall₂.length_eq h.id
  cases hscan : scan.id with
  | some id => exact ⟨id, rfl⟩
  | none =>
      obtain ⟨id, hid⟩ := Option.isSome_iff_exists.mp hid
      simp [hscan, hid] at hlength

end Leftmost

section Scans

variable {side : Side} {tree : JoinTree T C} {incoming : List ColumnId} {first last : Mark}
  {operand : Operand}

/-- A scan between the marks of a join tree stands on one of its sides. -/
theorem side_of_scanAt {join : PlanJoin} {select outer : SelectId} {scan : TableScan T}
    (hjoin : plan.selects[outer]? = some (.join join)) (hlast : select < outer + 1)
    (hscan : plan.scanAt select = some scan) (middle : SelectId) :
    select < middle ∨ middle ≤ select ∧ select < outer := by
  rcases Nat.lt_or_ge select middle with hlt | hge
  · exact .inl hlt
  · rcases Nat.lt_succ_iff_lt_or_eq.mp hlast with hlt | rfl
    · exact .inr ⟨hge, hlt⟩
    · simp [scanAt, hjoin] at hscan

/-- Every scan between the marks of a tree is the scan of one of its tables. If all parents declare
ids, its foreign keys copy incoming columns or declared ids. -/
theorem Laid.exists_hasScan (h : plan.Laid side tree incoming first last operand)
    {select : SelectId} {scan : TableScan T} (hfirst : first.select ≤ select)
    (hlast : select < last.select) (hscan : plan.scanAt select = some scan) :
    ∃ spec ∈ tree.specs, ∃ incoming' mark next, mark.select = select ∧
      plan.HasScan spec incoming' mark next scan ∧ first.column ≤ mark.column ∧
      next ≤ last.column ∧
      (tree.ParentsDeclareIds → ∀ references ∈ incoming',
        references ∈ incoming ∨ ∃ table, plan.DeclaresId table (plan.canonical references)) := by
  induction h with
  | @scan spec incoming first next scan' hscan' =>
      obtain rfl : select = first.select := Nat.le_antisymm (Nat.le_of_lt_succ hlast) hfirst
      obtain rfl : scan' = scan := Option.some.inj (hscan'.scanAt.symm.trans hscan)
      exact ⟨spec, JoinTree.mem_specs_table, incoming, first, next, rfl, hscan', Nat.le_refl _,
        Nat.le_refl _, fun _ references hr => .inl hr⟩
  | @view spec incoming first next scan' hscan' hview hrowNumber =>
      rcases Nat.eq_or_lt_of_le hfirst with rfl | hlt
      · obtain rfl : scan' = scan := Option.some.inj (hscan'.scanAt.symm.trans hscan)
        exact ⟨spec, JoinTree.mem_specs_table, incoming, first, next, rfl, hscan', Nat.le_refl _,
          Nat.le_succ _, fun _ references hr => .inl hr⟩
      · obtain rfl : select = first.select + 1 := Nat.le_antisymm (Nat.le_of_lt_succ hlast) hlt
        simp [scanAt, hview] at hscan
  | @join side left right incoming shown first middle last next parent child multiplicity owner join
      hparent _ hchild hjoin ihp ihc =>
      have hmiddle := hparent.room
      have hend := hchild.room
      have hnext : last.column ≤ next := by
        rw [hjoin.next_eq]
        exact Nat.le_add_right _ _
      rcases side_of_scanAt hjoin.select hlast hscan middle.select with hlt | ⟨hge, hlt⟩
      · obtain ⟨spec, hspec, incoming', mark, next', hselect, hscan', hcolumn, hnext', hids⟩ :=
          ihp hfirst hlt
        refine ⟨spec, List.mem_append_left _ hspec, incoming', mark, next', hselect, hscan',
          hcolumn, by dsimp only; omega, fun hparents => hids hparents.2.1⟩
      · obtain ⟨spec, hspec, incoming', mark, next', hselect, hscan', hcolumn, hnext', hids⟩ :=
          ihc hge hlt
        refine ⟨spec, List.mem_append_right _ hspec, incoming', mark, next', hselect, hscan',
          by omega, by dsimp only; omega, fun hparents references hr => .inr ?_⟩
        rcases hids hparents.2.2 references hr with hr | hdeclared
        · -- what the child receives is the id that the parent side's left-most table declares
          obtain ⟨mark, next, scan, -, hscan, hid⟩ := hparent.leftmost
          obtain ⟨id, hscanId⟩ := hscan.exists_id hparents.1
          have hmem := List.mem_map_of_mem (f := plan.canonical) hr
          rw [hid id hscanId, List.mem_singleton] at hmem
          rw [hmem]
          exact ⟨scan.table, mark.select, scan, hscan.scanAt, rfl, hscanId⟩
        · exact hdeclared

theorem Laid.scan_within (h : plan.Laid side tree incoming first last operand)
    {select : SelectId} {scan : TableScan T} {column : ColumnId} (hfirst : first.select ≤ select)
    (hlast : select < last.select) (hscan : plan.scanAt select = some scan)
    (hc : column ∈ scan.allColumns) : first.column ≤ column ∧ column < last.column := by
  obtain ⟨spec, -, incoming', mark, next, -, hscan', hcolumn, hnext, -⟩ :=
    h.exists_hasScan hfirst hlast hscan
  have hrange := hscan'.within hc
  rw [hscan'.canonical_eq hc] at hrange
  exact ⟨Nat.le_trans hcolumn hrange.1, Nat.lt_of_lt_of_le hrange.2 hnext⟩

theorem Laid.table_mem (h : plan.Laid side tree incoming first last operand)
    {select : SelectId} {scan : TableScan T} (hfirst : first.select ≤ select)
    (hlast : select < last.select) (hscan : plan.scanAt select = some scan) :
    scan.table ∈ tree.tables := by
  obtain ⟨spec, hspec, _, _, _, -, hlaid, -⟩ := h.exists_hasScan hfirst hlast hscan
  rw [hlaid.table]
  exact List.mem_map_of_mem hspec

theorem Laid.exists_scanAt (h : plan.Laid side tree incoming first last operand)
    {spec : TableSpec T C} (hspec : spec ∈ tree.specs) :
    ∃ select scan, plan.scanAt select = some scan ∧ scan.table = spec.table := by
  induction h with
  | @scan spec incoming first next scan hscan =>
      rw [JoinTree.specs, List.mem_singleton] at hspec
      exact ⟨first.select, scan, hscan.scanAt, hspec ▸ hscan.table⟩
  | @view spec incoming first next scan hscan hview hrowNumber =>
      rw [JoinTree.specs, List.mem_singleton] at hspec
      exact ⟨first.select, scan, hscan.scanAt, hspec ▸ hscan.table⟩
  | join _ _ _ _ ihp ihc =>
      rw [JoinTree.specs, List.mem_append] at hspec
      exact hspec.elim ihp ihc

theorem Laid.scan_unique (h : plan.Laid side tree incoming first last operand)
    {select select' : SelectId} {scan scan' : TableScan T} {column : ColumnId}
    (hfirst : first.select ≤ select) (hlast : select < last.select)
    (hfirst' : first.select ≤ select') (hlast' : select' < last.select)
    (hscan : plan.scanAt select = some scan) (hscan' : plan.scanAt select' = some scan')
    (hc : column ∈ scan.allColumns) (hc' : column ∈ scan'.allColumns) : select = select' := by
  induction h with
  | @scan spec incoming first next _ _ =>
      exact (Nat.le_antisymm (Nat.le_of_lt_succ hlast) hfirst).trans
        (Nat.le_antisymm (Nat.le_of_lt_succ hlast') hfirst').symm
  | @view spec incoming first next _ _ hview hrowNumber =>
      have hne : ∀ {s : SelectId} {scan : TableScan T}, first.select ≤ s → s < first.select + 2 →
          plan.scanAt s = some scan → s = first.select := by
        intro s scan hfirst hlast hscan
        rcases Nat.eq_or_lt_of_le hfirst with rfl | hlt
        · rfl
        · obtain rfl : s = first.select + 1 := Nat.le_antisymm (Nat.le_of_lt_succ hlast) hlt
          simp [scanAt, hview] at hscan
      exact (hne hfirst hlast hscan).trans (hne hfirst' hlast' hscan').symm
  | @join side left right incoming shown first middle last next parent child multiplicity owner join
      hparent _ hchild hjoin ihp ihc =>
      rcases side_of_scanAt hjoin.select hlast hscan middle.select with hl | hr <;>
        rcases side_of_scanAt hjoin.select hlast' hscan' middle.select with hl' | hr'
      · exact ihp hfirst hl hfirst' hl'
      · have hrange := hparent.scan_within hfirst hl hscan hc
        have hrange' := hchild.scan_within hr'.1 hr'.2 hscan' hc'
        exact absurd (Nat.lt_of_lt_of_le hrange.2 hrange'.1) (Nat.lt_irrefl _)
      · have hrange := hchild.scan_within hr.1 hr.2 hscan hc
        have hrange' := hparent.scan_within hfirst' hl' hscan' hc'
        exact absurd (Nat.lt_of_lt_of_le hrange'.2 hrange.1) (Nat.lt_irrefl _)
      · exact ihc hr.1 hr.2 hr'.1 hr'.2

end Scans

section Joins

variable {side : Side} {tree : JoinTree T C} {incoming : List ColumnId} {first last : Mark}
  {operand : Operand}

/-- The two sides of a tree with a join on top, and the join. -/
theorem Laid.exists_sides {left right : JoinTree T C} {multiplicity : Multiplicity} {owner : T}
    (h : plan.Laid side (.join left right multiplicity owner) incoming first last operand) :
    ∃ middle last' next parent child join shown,
      plan.Laid .parent left incoming first middle parent ∧ parent.id ≠ [] ∧
      plan.Laid .child right parent.id middle last' child ∧
      plan.HasJoin parent child multiplicity last' next join shown := by
  cases h with
  | join hparent hid hchild hjoin => exact ⟨_, _, _, _, _, _, _, hparent, hid, hchild, hjoin⟩

/-- Every join between the marks of a tree is the join of a part of the tree. -/
theorem Laid.exists_hasJoin (h : plan.Laid side tree incoming first last operand)
    {select : SelectId} {join : PlanJoin} (hfirst : first.select ≤ select)
    (hlast : select < last.select) (hselect : plan.selects[select]? = some (.join join)) :
    ∃ left right multiplicity owner incoming' first' middle last' next parent child shown,
      .join left right multiplicity owner ∈ tree.parts ∧
      plan.Laid .parent left incoming' first' middle parent ∧ parent.id ≠ [] ∧
      plan.Laid .child right parent.id middle last' child ∧
      plan.HasJoin parent child multiplicity last' next join shown ∧ last'.select = select := by
  induction h with
  | @scan spec incoming first next scan hscan =>
      obtain rfl : select = first.select := Nat.le_antisymm (Nat.le_of_lt_succ hlast) hfirst
      simp [hscan.select] at hselect
  | @view spec incoming first next scan hscan hview hrowNumber =>
      rcases Nat.eq_or_lt_of_le hfirst with rfl | hlt
      · simp [hscan.select] at hselect
      · obtain rfl : select = first.select + 1 := Nat.le_antisymm (Nat.le_of_lt_succ hlast) hlt
        simp [hview] at hselect
  | @join side left right incoming shown first middle last next parent child multiplicity owner
      join' hparent hid hchild hjoin ihp ihc =>
      rcases Nat.lt_or_ge select middle.select with hlt | hge
      · obtain ⟨left', right', m, o, inc, f, mid, l, n, p, c, sh, hpart, hrest⟩ := ihp hfirst hlt
        exact ⟨left', right', m, o, inc, f, mid, l, n, p, c, sh,
          List.mem_cons_of_mem _ (List.mem_append_left _ hpart), hrest⟩
      · rcases Nat.lt_or_ge select last.select with hlt | hge'
        · obtain ⟨left', right', m, o, inc, f, mid, l, n, p, c, sh, hpart, hrest⟩ := ihc hge hlt
          exact ⟨left', right', m, o, inc, f, mid, l, n, p, c, sh,
            List.mem_cons_of_mem _ (List.mem_append_right _ hpart), hrest⟩
        · obtain rfl : select = last.select := Nat.le_antisymm (Nat.le_of_lt_succ hlast) hge'
          obtain rfl : join' = join := by simpa using hjoin.select.symm.trans hselect
          exact ⟨left, right, multiplicity, owner, incoming, first, middle, last, next, parent,
            child, shown, List.mem_cons_self, hparent, hid, hchild, hjoin, rfl⟩

end Joins

section Whole

variable {whole : JoinTree T C} {top : Operand}

theorem select_of_scanAt {select : SelectId} {scan : TableScan T}
    (h : plan.scanAt select = some scan) : plan.selects[select]? = some (.scan scan) := by
  rw [scanAt] at h
  split at h
  · rwa [← Option.some.inj h]
  · contradiction

theorem lt_of_scanAt {select : SelectId} {scan : TableScan T}
    (h : plan.scanAt select = some scan) : select < plan.parts.mark.select :=
  (Array.getElem?_eq_some_iff.mp (select_of_scanAt h)).1

/-- In a plan made from a tree, every scan is the scan of one of the tables. If all parents declare
ids, its foreign keys copy declared ids. -/
theorem Laid.exists_hasScan_of_scanAt
    (hplan : plan.Laid .parent whole [] ⟨0, 0⟩ plan.parts.mark top) {select : SelectId}
    {scan : TableScan T} (h : plan.scanAt select = some scan) :
    ∃ spec ∈ whole.specs, ∃ incoming mark next, mark.select = select ∧
      plan.HasScan spec incoming mark next scan ∧
      (whole.ParentsDeclareIds → ∀ references ∈ incoming,
        ∃ table, plan.DeclaresId table (plan.canonical references)) := by
  obtain ⟨spec, hspec, incoming, mark, next, hselect, hscan, -, -, hids⟩ :=
    hplan.exists_hasScan (Nat.zero_le _) (lt_of_scanAt h) h
  exact ⟨spec, hspec, incoming, mark, next, hselect, hscan, fun hparents references hr =>
    (hids hparents references hr).resolve_left (by simp)⟩

/-- In a plan made from a tree, every join is the join of a part of the tree. -/
theorem Laid.exists_hasJoin_of_select
    (hplan : plan.Laid .parent whole [] ⟨0, 0⟩ plan.parts.mark top) {select : SelectId}
    {join : PlanJoin} (h : plan.selects[select]? = some (.join join)) :
    ∃ left right multiplicity owner incoming first middle last next parent child shown,
      .join left right multiplicity owner ∈ whole.parts ∧
      plan.Laid .parent left incoming first middle parent ∧ parent.id ≠ [] ∧
      plan.Laid .child right parent.id middle last child ∧
      plan.HasJoin parent child multiplicity last next join shown ∧ last.select = select :=
  hplan.exists_hasJoin (Nat.zero_le _) (Array.getElem?_eq_some_iff.mp h).1 h

theorem Laid.table_unique (hplan : plan.Laid .parent whole [] ⟨0, 0⟩ plan.parts.mark top)
    {table table' : T} {id : ColumnId} (h : plan.DeclaresId table id)
    (h' : plan.DeclaresId table' id) : table = table' := by
  obtain ⟨select, scan, hscan, rfl, hid⟩ := h
  obtain ⟨select', scan', hscan', rfl, hid'⟩ := h'
  obtain rfl := hplan.scan_unique (Nat.zero_le _) (lt_of_scanAt hscan) (Nat.zero_le _)
    (lt_of_scanAt hscan') hscan hscan' (TableScan.id_mem_allColumns hid)
    (TableScan.id_mem_allColumns hid')
  rw [Option.some.inj (hscan.symm.trans hscan')]

end Whole

end Plan

end FlatAggregate
