import FlatAggregate.Proofs.Rows.Lineage

/-!
# Chains of tables

A tree is unbranched when no table in it has two children. Then every row of a join has its
identity: on a pair with a row of the parent table that is the row's id, and on a row of the branch
alone it is the foreign key that the branch offers. So the identity groups the rows of a branch by
the row of the left-most table to which they belong, and the maxima over these groups are that row's
foreign keys.

`ForeignKeysReach` and `IdentityReaches` say what a select owes to the joins above it; on unbranched
trees both hold in all consistent databases.
-/

namespace FlatAggregate

variable {T C V : Type}

namespace Plan

variable {plan : Plan T C}

/-- On every row of a select, all table rows belong to one row of the left-most table, and the
foreign keys are the ones of that row. -/
def ForeignKeysReach [DecidableEq T] [Domain V] (plan : Plan T C) (db : Database T V)
    (select : SelectId) : Prop :=
  ∀ scan, plan.leftmost select = some scan → ∀ row ∈ plan.rows db select,
    ∃ position own, (db scan.table)[position]? = some own ∧
      plan.BelongsTo db row (scan.table, position) ∧
      plan.reads (plan.foreignKeysOf select) row = scan.foreignKeys.map own

/-- On every row of a join, all table rows belong to one row of the left-most table, and every
identity column is there and is the id of that row. -/
def IdentityReaches [DecidableEq T] [Domain V] (plan : Plan T C) (db : Database T V)
    (select : SelectId) : Prop :=
  ∀ join scan id, plan.selects[select]? = some (.join join) → plan.leftmost select = some scan →
    scan.id = some id → ∀ row ∈ plan.rows db select,
      ∃ position own, (db scan.table)[position]? = some own ∧
        plan.BelongsTo db row (scan.table, position) ∧
        ∀ column ∈ join.identity, plan.read row column ≠ none ∧ plan.read row column = own id

section Chain

variable [DecidableEq T] [Domain V] {db : Database T V} {whole : JoinTree T C} {top : Operand}
  (hplan : plan.Laid .parent whole [] ⟨0, 0⟩ plan.parts.mark top) (hdb : plan.Consistent db)
  {spec : TableSpec T C} {right : JoinTree T C} {incoming shown : List ColumnId}
  {first last : Mark} {next next' : Nat} {scan : TableScan T} {child : Operand}
  {multiplicity : Multiplicity} {join : PlanJoin} {id : ColumnId}

omit [DecidableEq T] in
/-- The branch below a table with an id offers one foreign key: that of its left-most table, which
is a copy of the id. -/
theorem HasScan.exists_copy (hscan : plan.HasScan spec incoming first next' scan)
    (hid : scan.id = some id)
    (hchild : plan.Laid .child right (scan.operand first.select).id ⟨first.select + 1, next'⟩ last
      child) :
    ∃ offered branch copy, child.foreignKeys = [offered] ∧
      plan.leftmost child.select = some branch ∧ branch.foreignKeys = [copy] ∧
      plan.Copies branch.table copy id := by
  have hidColumns : (scan.operand first.select).id = [id] := TableScan.idColumns_of_id hid
  have hidMem := TableScan.id_mem_allColumns hid
  obtain ⟨offered, hoffered⟩ : ∃ offered, child.foreignKeys = [offered] := by
    apply List.length_eq_one_iff.mp
    rw [hchild.length_foreignKeys, hidColumns]
    rfl
  obtain ⟨mark, _, branch, hleftmost, hbranch, -⟩ := hchild.leftmost
  have hcopies := hbranch.foreignKeys
  rw [hidColumns, List.map_singleton] at hcopies
  obtain ⟨copy, rest, hcopy, hnil, hbranchKeys⟩ := List.forall₂_cons_right_iff.mp hcopies
  obtain rfl := List.forall₂_nil_right_iff.mp hnil
  exact ⟨offered, branch, copy, hoffered, hleftmost, hbranchKeys, mark.select, branch, id,
    mark.select, hbranch.scanAt, rfl, by simp [hbranchKeys], hcopy,
    (hscan.canonical_eq hidMem).symm⟩

/-- The key of a pair is the greater of the table's id and the branch's foreign key. -/
theorem HasScan.pairKey_eq (hscan : plan.HasScan spec incoming first next' scan)
    (hid : scan.id = some id)
    (hchild : plan.Laid .child right (scan.operand first.select).id ⟨first.select + 1, next'⟩ last
      child)
    (hjoin : plan.HasJoin (scan.operand first.select) child multiplicity last next join shown)
    {offered : ColumnId} (hoffered : child.foreignKeys = [offered])
    {pair : Option (Tuple T V) × Option (Tuple T V)} (hpair : pair ∈ plan.pairs db join) :
    plan.pairKey ((scan.operand first.select).id.zip child.foreignKeys) pair =
      [greatest [pair.1.bind (plan.read · id), pair.2.bind (plan.read · offered)]] := by
  have hparent : plan.Laid .parent (.table spec) incoming first ⟨first.select + 1, next'⟩
      (scan.operand first.select) := .scan hscan
  have hsides := hparent.sidesWithin db hchild hjoin hpair
  have hidColumns : (scan.operand first.select).id = [id] := TableScan.idColumns_of_id hid
  have hreadId : plan.read (Tuple.merge pair) id = pair.1.bind (plan.read · id) :=
    hparent.read_parent hsides (by simp [hidColumns])
  have hreadKey : plan.read (Tuple.merge pair) offered = pair.2.bind (plan.read · offered) :=
    hchild.read_child hsides (by simp [hoffered])
  simp only [hidColumns, hoffered, List.zip_cons_cons, List.zip_nil_left, pairKey,
    List.map_singleton, hreadId, hreadKey]

include hplan hdb

/-- Every pair of a table and the branch below it belongs to one row of the table, and its identity
is the id of that row. -/
theorem HasScan.exists_own (hscan : plan.HasScan spec incoming first next' scan)
    (hid : scan.id = some id)
    (hchild : plan.Laid .child right (scan.operand first.select).id ⟨first.select + 1, next'⟩ last
      child)
    (hjoin : plan.HasJoin (scan.operand first.select) child multiplicity last next join shown)
    (hreach : plan.ForeignKeysReach db child.select)
    {pair : Option (Tuple T V) × Option (Tuple T V)} (hpair : pair ∈ plan.pairs db join) :
    ∃ position own, (db scan.table)[position]? = some own ∧
      plan.BelongsTo db (Tuple.merge pair) (scan.table, position) ∧
      plan.pairKey ((scan.operand first.select).id.zip child.foreignKeys) pair = [own id] ∧
      ∀ row, pair.1 = some row → row = scanRow scan position own := by
  have hparent : plan.Laid .parent (.table spec) incoming first ⟨first.select + 1, next'⟩
      (scan.operand first.select) := .scan hscan
  have hsides := hparent.sidesWithin db hchild hjoin hpair
  have hidColumns : (scan.operand first.select).id = [id] := TableScan.idColumns_of_id hid
  have hidMem := TableScan.id_mem_allColumns hid
  have hdeclares : plan.DeclaresId scan.table id := ⟨first.select, scan, hscan.scanAt, rfl, hid⟩
  obtain ⟨g, branch, f, hg, hleftmost, hbranchKeys, hcopy⟩ := hscan.exists_copy hid hchild
  have hleft : ∀ row ∈ plan.rows db join.parent, ∃ position own,
      (db scan.table)[position]? = some own ∧ row = scanRow scan position own := by
    intro row hrow
    rw [hjoin.parent_eq, TableScan.operand, rows_scan hscan.select] at hrow
    exact (mem_scanRows db).mp hrow
  have hright : ∀ row ∈ plan.rows db join.child, ∃ position own,
      (db branch.table)[position]? = some own ∧
        plan.BelongsTo db row (branch.table, position) ∧ plan.read row g = own f := by
    intro row hrow
    rw [hjoin.child_eq] at hrow
    obtain ⟨position, own, hown, hbelongs, hreads⟩ := hreach branch hleftmost row hrow
    rw [hchild.offers.2.2.1, hg, hbranchKeys] at hreads
    exact ⟨position, own, hown, hbelongs, by simpa [reads] using hreads⟩
  rw [hscan.pairKey_eq hid hchild hjoin hg hpair]
  rcases mem_fullOuter.mp hpair with ⟨l, hl, r, hr, hagree, rfl⟩ | ⟨l, hl, -, rfl⟩ | ⟨r, hr, -, rfl⟩
  · obtain ⟨position, own, hown, rfl⟩ := hleft l hl
    obtain ⟨place, ownBranch, hownBranch, hbelongs, hread⟩ := hright r hr
    have hsame := ((hparent.agree_iff hchild hjoin (hsides.1 _ rfl) (hsides.2 _ rfl)).mp
      hagree).1 (id, g) (by simp [hidColumns, hg])
    rw [hscan.read_scanRow position own hidMem, hread, sameValue_iff] at hsame
    have hrefers : plan.Refers db (branch.table, place) (scan.table, position) :=
      ⟨f, id, ownBranch, own, hcopy, hdeclares, hownBranch, hown, hsame.1 ▸ hsame.2, hsame.1⟩
    refine ⟨position, own, hown, ?_, ?_, fun row h => (Option.some.inj h).symm⟩
    · exact belongsTo_merge (by simp)
        (fun row h => Option.some.inj h ▸ belongsTo_of_source rfl)
        (fun row h => Option.some.inj h ▸ hbelongs.trans hrefers)
    · simp only [Option.bind_some, hscan.read_scanRow position own hidMem, hread, ← hsame.1,
        greatest_same]
  · obtain ⟨position, own, hown, rfl⟩ := hleft l hl
    refine ⟨position, own, hown, ?_, ?_, fun row h => (Option.some.inj h).symm⟩
    · exact belongsTo_merge (by simp)
        (fun row h => Option.some.inj h ▸ belongsTo_of_source rfl) (by simp)
    · simp only [Option.bind_some, Option.bind_none, hscan.read_scanRow position own hidMem,
        greatest_none_right]
  · obtain ⟨place, ownBranch, hownBranch, hbelongs, hread⟩ := hright r hr
    obtain ⟨hsome, parent, hparentId, own, hmemOwn, hownId⟩ :=
      hdb.copy branch.table f id hcopy ownBranch (List.mem_of_getElem? hownBranch)
    obtain rfl := hplan.table_unique hparentId hdeclares
    obtain ⟨position, hown⟩ := List.mem_iff_getElem?.mp hmemOwn
    have hrefers : plan.Refers db (branch.table, place) (scan.table, position) :=
      ⟨f, id, ownBranch, own, hcopy, hdeclares, hownBranch, hown, hsome, hownId⟩
    refine ⟨position, own, hown, ?_, ?_, by simp⟩
    · exact belongsTo_merge (by simp) (by simp)
        (fun row h => Option.some.inj h ▸ hbelongs.trans hrefers)
    · simp only [Option.bind_some, Option.bind_none, hread, hownId, greatest_none_left]

/-- The foreign keys of a table and the branch below it are those of the table. -/
theorem HasScan.foreignKeysReach (hscan : plan.HasScan spec incoming first next' scan)
    (hid : scan.id = some id)
    (hchild : plan.Laid .child right (scan.operand first.select).id ⟨first.select + 1, next'⟩ last
      child)
    (hjoin : plan.HasJoin (scan.operand first.select) child multiplicity last next join shown)
    (hreach : plan.ForeignKeysReach db child.select) : plan.ForeignKeysReach db last.select := by
  have hparent : plan.Laid .parent (.table spec) incoming first ⟨first.select + 1, next'⟩
      (scan.operand first.select) := .scan hscan
  have hdeclares : plan.DeclaresId scan.table id := ⟨first.select, scan, hscan.scanAt, rfl, hid⟩
  have hleftmost : plan.leftmost last.select = some scan :=
    (hparent.leftmost_eq hchild hjoin).trans (leftmost_scan hscan.select)
  have hidMem := TableScan.id_mem_allColumns hid
  have howns : ∀ pair ∈ plan.pairs db join, ∃ position own,
      (db scan.table)[position]? = some own ∧
        plan.BelongsTo db (Tuple.merge pair) (scan.table, position) ∧
        plan.pairKey ((scan.operand first.select).id.zip child.foreignKeys) pair = [own id] ∧
        ∀ row, pair.1 = some row → row = scanRow scan position own := fun _ =>
    hscan.exists_own hplan hdb hid hchild hjoin hreach
  intro scan' hscan' row hrow
  obtain rfl := Option.some.inj (hleftmost.symm.trans hscan')
  rw [hparent.rows_eq db hchild hjoin] at hrow
  obtain ⟨pair, hpair, rfl⟩ := List.mem_map.mp hrow
  obtain ⟨position, own, hown, hbelongs, hkey, -⟩ := howns pair hpair
  refine ⟨position, own, hown, hbelongs, ?_⟩
  have hforeignKeys : plan.foreignKeysOf last.select = join.foreignKeys := by
    rw [foreignKeysOf, hjoin.select]
  rw [hforeignKeys, hjoin.reads_foreignKeys (hparent.front hchild)]
  refine List.map_congr_left fun source hsource => ?_
  have hstored : source ∈ scan.allColumns := scan.foreignKeys_subset hsource
  have hread : ∀ {pair}, pair ∈ plan.pairs db join →
      plan.read (Tuple.merge pair) source = pair.1.bind (plan.read · source) := fun hpair =>
    hparent.read_parent (hparent.sidesWithin db hchild hjoin hpair)
      (by simp [TableScan.operand, hstored])
  -- a foreign key is never absent, so the row's own one is the only value of its group
  obtain ⟨v, hv⟩ : ∃ v, own source = some v := by
    obtain ⟨references, -, heq⟩ := hscan.foreignKeys.exists_source hsource
    exact Option.ne_none_iff_exists'.mp (hdb.copy scan.table source _
      ⟨first.select, scan, references, _, hscan.scanAt, rfl, hsource, heq, rfl⟩ own
      (List.mem_of_getElem? hown)).1
  rw [spread_map, hkey, hv]
  apply greatest_eq_of_forall
  · obtain ⟨other, hother, hrow⟩ := exists_mem_pairs_left db
      (show scanRow scan position own ∈ plan.rows db join.parent by
        rw [hjoin.parent_eq, TableScan.operand, rows_scan hscan.select]
        exact (mem_scanRows db).mpr ⟨position, own, hown, rfl⟩)
    obtain ⟨position', own', -, -, hkey', hrow'⟩ := howns other hother
    have hidRead := congrArg (plan.read · id) (hrow' _ hrow)
    simp only [hscan.read_scanRow _ _ hidMem] at hidRead
    refine List.mem_map.mpr ⟨other, List.mem_filter.mpr ⟨hother, ?_⟩, ?_⟩
    · simp [hkey', hidRead]
    · rw [hread hother, hrow, Option.bind_some, hscan.read_scanRow position own hstored, hv]
  · intro w hw
    obtain ⟨other, hfiltered, hvalue⟩ := List.mem_map.mp hw
    obtain ⟨hother, hgroup⟩ := List.mem_filter.mp hfiltered
    obtain ⟨position', own', hown', -, hkey', hrow'⟩ := howns other hother
    have hsame : own' id = own id := by simpa [hkey'] using hgroup
    obtain rfl := hdb.position_unique hdeclares hown' hown hsame
    obtain rfl := Option.some.inj (hown'.symm.trans hown)
    rw [hread hother] at hvalue
    obtain ⟨row, hrow, hvalue⟩ := Option.bind_eq_some_iff.mp hvalue
    rw [hrow' row hrow, hscan.read_scanRow position' own' hstored, hv] at hvalue
    exact (Option.some.inj hvalue).symm

/-- The identity of a table and the branch below it is the id of the table. -/
theorem HasScan.identityReaches (hscan : plan.HasScan spec incoming first next' scan)
    (hid : scan.id = some id)
    (hchild : plan.Laid .child right (scan.operand first.select).id ⟨first.select + 1, next'⟩ last
      child)
    (hjoin : plan.HasJoin (scan.operand first.select) child multiplicity last next join shown)
    (hreach : plan.ForeignKeysReach db child.select) : plan.IdentityReaches db last.select := by
  have hparent : plan.Laid .parent (.table spec) incoming first ⟨first.select + 1, next'⟩
      (scan.operand first.select) := .scan hscan
  have hleftmost : plan.leftmost last.select = some scan :=
    (hparent.leftmost_eq hchild hjoin).trans (leftmost_scan hscan.select)
  intro join' scan' id' hjoin' hscan' hid' row hrow
  obtain rfl : join = join' := by
    have heq := hjoin.select.symm.trans hjoin'
    simpa using heq
  obtain rfl := Option.some.inj (hleftmost.symm.trans hscan')
  obtain rfl := Option.some.inj (hid.symm.trans hid')
  rw [hparent.rows_eq db hchild hjoin] at hrow
  obtain ⟨pair, hpair, rfl⟩ := List.mem_map.mp hrow
  obtain ⟨position, own, hown, hbelongs, hkey, -⟩ :=
    hscan.exists_own hplan hdb hid hchild hjoin hreach hpair
  refine ⟨position, own, hown, hbelongs, fun column hc => ?_⟩
  have hread : plan.read (plan.joined join (plan.pairs db join) pair) column = own id := by
    have hmem := List.mem_map_of_mem
      (f := plan.read (plan.joined join (plan.pairs db join) pair)) hc
    rwa [← reads, hjoin.reads_identity, hkey, List.mem_singleton] at hmem
  rw [hread]
  exact ⟨hdb.id_ne_none scan.table id ⟨first.select, scan, hscan.scanAt, rfl, hid⟩ own
    (List.mem_of_getElem? hown), rfl⟩

theorem Laid.foreignKeysReach {side : Side} {tree : JoinTree T C} {operand : Operand}
    (h : plan.Laid side tree incoming first last operand) (hunbranched : tree.Unbranched)
    (hids : tree.ParentsDeclareIds) : plan.ForeignKeysReach db operand.select := by
  induction h with
  | @scan spec incoming first next scan hscan =>
      intro scan' hscan' row hrow
      obtain rfl := Option.some.inj ((leftmost_scan hscan.select).symm.trans hscan')
      change row ∈ plan.rows db first.select at hrow
      rw [rows_scan hscan.select] at hrow
      obtain ⟨position, own, hown, rfl⟩ := (mem_scanRows db).mp hrow
      refine ⟨position, own, hown, belongsTo_of_source rfl, ?_⟩
      rw [(Laid.scan hscan).offers.2.2.1]
      exact List.map_congr_left fun column hc =>
        hscan.read_scanRow position own (scan.foreignKeys_subset hc)
  | @view spec incoming first next scan hscan hview hrowNumber =>
      intro scan' hscan' row hrow
      have hleftmost : plan.leftmost (first.select + 1) = some scan := by
        rw [Plan.leftmost, hview]
        exact hscan.scanAt
      obtain rfl := Option.some.inj (hleftmost.symm.trans hscan')
      obtain ⟨position, own, hown, hsource, hread⟩ := hscan.of_mem_view db hview hrow
      refine ⟨position, own, hown, belongsTo_of_source hsource, ?_⟩
      rw [(Laid.view hscan hview hrowNumber).offers.2.2.1]
      exact List.map_congr_left fun column hc => hread column (scan.foreignKeys_subset hc)
  | @join side left right incoming shown first middle last next parent child multiplicity owner join
      hparent _ hchild hjoin ihp ihc =>
      cases hparent with
      | join => exact absurd hunbranched (by simp [JoinTree.Unbranched])
      | scan hscan =>
          obtain ⟨id, hid⟩ := hscan.exists_id hids.1
          exact hscan.foreignKeysReach hplan hdb hid hchild hjoin (ihc hunbranched hids.2.2)

theorem Laid.identityReaches {side : Side} {tree : JoinTree T C} {operand : Operand}
    (h : plan.Laid side tree incoming first last operand) (hunbranched : tree.Unbranched)
    (hids : tree.ParentsDeclareIds) : plan.IdentityReaches db operand.select := by
  cases h with
  | scan hscan =>
      intro join scan id hjoin
      simp [TableScan.operand, hscan.select] at hjoin
  | view hscan hview _ =>
      intro join scan id hjoin
      simp [TableScan.viewOperand, hview] at hjoin
  | @join _ left right _ _ _ _ _ _ _ _ _ _ _ hparent _ hchild hjoin =>
      cases hparent with
      | join => exact absurd hunbranched (by simp [JoinTree.Unbranched])
      | scan hscan =>
          obtain ⟨id, hid⟩ := hscan.exists_id hids.1
          have hreach := Laid.foreignKeysReach hplan hdb hchild hunbranched hids.2.2
          exact hscan.identityReaches hplan hdb hid hchild hjoin hreach

end Chain

end Plan

end FlatAggregate
