import FlatAggregate.Proofs.Rows.Reading

/-!
# The rows of laid out trees

The rows of a scan are those of its table, the rows of a view are those of its scan with numbers,
and the rows of a join are made from the pairs of a full outer join, one row per pair (`joined`).

A row of a tree has values only for columns between the marks of that tree. So in a pair the columns
of the parent side are read from the left row and those of the child side from the right row, and a
missing row has no values at all.

`pairs` lists the pairs of a join and `identified` the rows before the maxima are taken; `pairKey`
is what the maxima group by, told from the pair alone.
-/

namespace FlatAggregate

variable {T C V : Type}

def Tuple.Within (row : Tuple T V) (first last : Mark) : Prop :=
  ∀ column, row.value column ≠ none → first.column ≤ column ∧ column < last.column

def SidesWithin (first middle last : Mark) (pair : Option (Tuple T V) × Option (Tuple T V)) :
    Prop :=
  (∀ row, pair.1 = some row → row.Within first middle) ∧
    ∀ row, pair.2 = some row → row.Within middle last

theorem SidesWithin.of_mem {first middle last : Mark} {on : Tuple T V → Tuple T V → Bool}
    {left right : List (Tuple T V)} (hleft : ∀ row ∈ left, row.Within first middle)
    (hright : ∀ row ∈ right, row.Within middle last)
    {pair : Option (Tuple T V) × Option (Tuple T V)} (h : pair ∈ fullOuter on left right) :
    SidesWithin first middle last pair :=
  ⟨fun row hrow => hleft row (left_of_mem_fullOuter h hrow),
    fun row hrow => hright row (right_of_mem_fullOuter h hrow)⟩

namespace Tuple

variable {first middle last : Mark} {pair : Option (Tuple T V) × Option (Tuple T V)}
  {column : ColumnId}

theorem value_merge_left (h : SidesWithin first middle last pair) (hlt : column < middle.column) :
    (merge pair).value column = pair.1.bind (·.value column) := by
  have hright : pair.2.bind (·.value column) = none := by
    cases hpair : pair.2 with
    | none => rfl
    | some row =>
        by_contra hne
        exact Nat.not_le_of_lt hlt (h.2 row hpair column hne).1
  rw [value_merge, hright, Option.or_none]

theorem value_merge_right (h : SidesWithin first middle last pair)
    (hle : middle.column ≤ column) :
    (merge pair).value column = pair.2.bind (·.value column) := by
  have hleft : pair.1.bind (·.value column) = none := by
    cases hpair : pair.1 with
    | none => rfl
    | some row =>
        by_contra hne
        exact Nat.not_lt_of_le hle (h.1 row hpair column hne).2
  rw [value_merge, hleft, Option.none_or]

end Tuple

namespace Plan

variable [Domain V] {plan : Plan T C}

section Selects

variable [DecidableEq T] {db : Database T V}

theorem rows_scan {select : SelectId} {scan : TableScan T}
    (h : plan.selects[select]? = some (.scan scan)) :
    plan.rows db select = scanRows db scan := by
  rw [rows, h]

theorem rows_view {select table : SelectId} {rowNumber : ColumnId}
    (h : plan.selects[select]? = some (.view table rowNumber)) (hlt : table < select) :
    plan.rows db select = plan.compute [rowNumber] (plan.rows db table) := by
  rw [rows, h]
  simp only [earlier, dif_pos hlt]

theorem rows_join {select : SelectId} {join : PlanJoin}
    (h : plan.selects[select]? = some (.join join)) (hparent : join.parent < select)
    (hchild : join.child < select) :
    plan.rows db select =
      plan.joinRows join (plan.rows db join.parent) (plan.rows db join.child) := by
  rw [rows, h]
  simp only [earlier, dif_pos hparent, dif_pos hchild]

end Selects

def identified (plan : Plan T C) (join : PlanJoin)
    (pair : Option (Tuple T V) × Option (Tuple T V)) : Tuple T V :=
  (Tuple.merge pair).withValues (join.identity ++ [join.rowNumber])
    (plan.computed [] 0 (Tuple.merge pair))

def joined (plan : Plan T C) (join : PlanJoin)
    (pairs : List (Option (Tuple T V) × Option (Tuple T V)))
    (pair : Option (Tuple T V) × Option (Tuple T V)) : Tuple T V :=
  (plan.identified join pair).withValues join.foreignKeys
    (plan.computed (pairs.map (plan.identified join)) 0 (plan.identified join pair))

section Pairs

variable {side : Side} {left right : JoinTree T C} {incoming shown : List ColumnId}
  {first middle last : Mark} {next : Nat} {parent child : Operand} {multiplicity : Multiplicity}
  {join : PlanJoin} {pairs : List (Option (Tuple T V) × Option (Tuple T V))}
  {pair : Option (Tuple T V) × Option (Tuple T V)}

theorem HasJoin.joinRows_eq (hjoin : plan.HasJoin parent child multiplicity last next join shown)
    (leftRows rightRows : List (Tuple T V)) :
    plan.joinRows join leftRows rightRows =
      (fullOuter (plan.agree join.conditions) leftRows rightRows).map
        (plan.joined join (fullOuter (plan.agree join.conditions) leftRows rightRows)) := by
  have hidentified : ∀ pairs : List (Option (Tuple T V) × Option (Tuple T V)),
      plan.compute (join.identity ++ [join.rowNumber]) (pairs.map Tuple.merge) =
        pairs.map (plan.identified join) := by
    intro pairs
    rw [compute_eq_map, List.map_map]
    · refine List.map_congr_left fun pair _ => Tuple.withValues_congr fun column hc => ?_
      obtain ⟨l, r, role, hdefinition⟩ := hjoin.greatest_of_mem hc
      rw [computed, computed, hdefinition]
    · intro column hc partitionBy
      obtain ⟨l, r, role, hdefinition⟩ := hjoin.greatest_of_mem hc
      simp [hdefinition]
  rw [joinRows, hidentified, compute_eq_map, List.map_map]
  · rfl
  · intro column hc partitionBy
    obtain ⟨source, -, hdefinition⟩ := hjoin.maxOver_of_mem hc
    simp [hdefinition]

theorem value_joined_of_not_mem {column : ColumnId} (h : column ∉ join.ownColumns) :
    (plan.joined join pairs pair).value column = (Tuple.merge pair).value column := by
  have hne : column ∉ join.identity ++ [join.rowNumber] ∧ column ∉ join.foreignKeys := by
    rwa [PlanJoin.ownColumns, List.mem_append, not_or] at h
  rw [joined, Tuple.value_withValues_of_not_mem hne.2, identified,
    Tuple.value_withValues_of_not_mem hne.1]

theorem HasJoin.read_own (hjoin : plan.HasJoin parent child multiplicity last next join shown)
    {row : Tuple T V} {column : ColumnId} (hc : column ∈ join.ownColumns) :
    plan.read row column = row.value column := by
  have hcanonical := hjoin.canonical_own hc
  rw [read_of_not_literal fun value => hcanonical.symm ▸ hjoin.not_literal hc value, hcanonical]

theorem HasJoin.canonical_front
    (hjoin : plan.HasJoin parent child multiplicity last next join shown) {column : ColumnId}
    (hlt : column < last.column) : plan.canonical column ∉ join.ownColumns := fun hc => by
  have hrange := hjoin.mem_range (List.mem_append_left shown (List.mem_append_left join.id hc))
  exact Nat.not_lt_of_le hrange.1 (Nat.lt_of_le_of_lt (plan.canonical_le column) hlt)

theorem HasJoin.read_identified_front
    (hjoin : plan.HasJoin parent child multiplicity last next join shown) {column : ColumnId}
    (hlt : column < last.column) :
    plan.read (plan.identified join pair) column = plan.read (Tuple.merge pair) column := by
  have hne : plan.canonical column ∉ join.identity ++ [join.rowNumber] := fun hc =>
    hjoin.canonical_front hlt (List.mem_append_left _ hc)
  rw [read, read, identified, Tuple.value_withValues_of_not_mem hne]

/-- Columns that show none that the join computes are read as on the pair. -/
theorem read_joined_of_not_mem {column : ColumnId} (h : plan.canonical column ∉ join.ownColumns) :
    plan.read (plan.joined join pairs pair) column = plan.read (Tuple.merge pair) column := by
  rw [read, read, value_joined_of_not_mem h]

theorem HasJoin.read_front (hjoin : plan.HasJoin parent child multiplicity last next join shown)
    {column : ColumnId} (hlt : column < last.column) :
    plan.read (plan.joined join pairs pair) column = plan.read (Tuple.merge pair) column :=
  read_joined_of_not_mem (hjoin.canonical_front hlt)

theorem HasJoin.read_identified_greatest
    (hjoin : plan.HasJoin parent child multiplicity last next join shown) {column l r : ColumnId}
    {role : GreatestRole} (hc : column ∈ join.identity ++ [join.rowNumber])
    (hdefinition : plan.columns[column]? = some (.greatest l r role)) :
    plan.read (plan.identified join pair) column =
      greatest [plan.read (Tuple.merge pair) l, plan.read (Tuple.merge pair) r] := by
  rw [hjoin.read_own (List.mem_append_left _ hc), identified, Tuple.value_withValues_of_mem hc,
    computed, hdefinition]

theorem HasJoin.read_greatest (hjoin : plan.HasJoin parent child multiplicity last next join shown)
    {column l r : ColumnId} {role : GreatestRole} (hc : column ∈ join.identity ++ [join.rowNumber])
    (hdefinition : plan.columns[column]? = some (.greatest l r role)) :
    plan.read (plan.joined join pairs pair) column =
      greatest [plan.read (Tuple.merge pair) l, plan.read (Tuple.merge pair) r] := by
  have hown : column ∈ join.ownColumns := List.mem_append_left _ hc
  have hnodup := hjoin.nodup
  rw [List.append_assoc, List.nodup_append, PlanJoin.ownColumns, List.nodup_append] at hnodup
  have hne : column ∉ join.foreignKeys := fun hf => hnodup.1.2.2 column hc column hf rfl
  rw [hjoin.read_own hown, joined, Tuple.value_withValues_of_not_mem hne, ← hjoin.read_own hown,
    hjoin.read_identified_greatest hc hdefinition]

def pairKey (plan : Plan T C) (compared : List (ColumnId × ColumnId))
    (pair : Option (Tuple T V) × Option (Tuple T V)) : List (Option V) :=
  compared.map fun (l, r) =>
    greatest [plan.read (Tuple.merge pair) l, plan.read (Tuple.merge pair) r]

theorem HasJoin.reads_identified
    (hjoin : plan.HasJoin parent child multiplicity last next join shown) :
    plan.reads join.identity (plan.identified join pair) =
      plan.pairKey (parent.id.zip child.foreignKeys) pair :=
  hjoin.identity.map_congr fun _ hh _ _ heq =>
    hjoin.read_identified_greatest (List.mem_append_left _ hh) heq

theorem HasJoin.reads_identity
    (hjoin : plan.HasJoin parent child multiplicity last next join shown) :
    plan.reads join.identity (plan.joined join pairs pair) =
      plan.pairKey (parent.id.zip child.foreignKeys) pair :=
  hjoin.identity.map_congr fun _ hh _ _ heq =>
    hjoin.read_greatest (List.mem_append_left _ hh) heq

theorem HasJoin.read_rowNumber
    (hjoin : plan.HasJoin parent child multiplicity last next join shown) :
    plan.read (plan.joined join pairs pair) join.rowNumber =
      greatest [plan.read (Tuple.merge pair) parent.rowNumber,
        plan.read (Tuple.merge pair) child.rowNumber] :=
  hjoin.read_greatest (List.mem_append_right _ List.mem_cons_self) hjoin.rowNumber

/-- A foreign key of a join is the maximum of the parent side's foreign key over all pairs with the
same identity. -/
theorem HasJoin.read_foreignKey
    (hjoin : plan.HasJoin parent child multiplicity last next join shown)
    (hfront : ∀ column ∈ parent.handles ++ child.handles, column < last.column)
    {handle source : ColumnId} (hh : handle ∈ join.foreignKeys) (hs : source ∈ parent.foreignKeys)
    (heq : plan.columns[handle]? = some (.maxOver source join.identity)) :
    plan.read (plan.joined join pairs pair) handle =
      spread (pairs.map (plan.pairKey (parent.id.zip child.foreignKeys)))
        (pairs.map fun other => plan.read (Tuple.merge other) source)
        (plan.pairKey (parent.id.zip child.foreignKeys) pair) := by
  have hown : handle ∈ join.ownColumns := List.mem_append_right _ hh
  have hlt : source < last.column := hfront source (by simp [Operand.handles, hs])
  have hkeys : (pairs.map (plan.identified join)).map (plan.reads join.identity) =
      pairs.map (plan.pairKey (parent.id.zip child.foreignKeys)) := by
    rw [List.map_map]
    exact List.map_congr_left fun other _ => hjoin.reads_identified
  have hvalues : (pairs.map (plan.identified join)).map (plan.read · source) =
      pairs.map fun other => plan.read (Tuple.merge other) source := by
    rw [List.map_map]
    exact List.map_congr_left fun other _ => hjoin.read_identified_front hlt
  rw [hjoin.read_own hown, joined, Tuple.value_withValues_of_mem hh, computed, heq]
  simp only [hkeys, hvalues, hjoin.reads_identified]

theorem HasJoin.reads_foreignKeys
    (hjoin : plan.HasJoin parent child multiplicity last next join shown)
    (hfront : ∀ column ∈ parent.handles ++ child.handles, column < last.column) :
    plan.reads join.foreignKeys (plan.joined join pairs pair) =
      parent.foreignKeys.map fun source =>
        spread (pairs.map (plan.pairKey (parent.id.zip child.foreignKeys)))
          (pairs.map fun other => plan.read (Tuple.merge other) source)
          (plan.pairKey (parent.id.zip child.foreignKeys) pair) :=
  hjoin.foreignKeys.map_congr fun _ hh _ hs heq => hjoin.read_foreignKey hfront hh hs heq

/-- The id columns of a join are read as those of its parent side. -/
theorem HasJoin.reads_id (hjoin : plan.HasJoin parent child multiplicity last next join shown)
    (hfront : ∀ column ∈ parent.handles ++ child.handles, column < last.column) :
    plan.reads join.id (plan.joined join pairs pair) =
      plan.reads parent.id (Tuple.merge pair) := by
  refine hjoin.id.map_congr fun handle hh source hs heq => ?_
  have hlt : source < last.column := hfront source (by simp [Operand.handles, hs])
  have hhandle : last.column ≤ handle :=
    (hjoin.mem_range (List.mem_append_left _ (List.mem_append_right _ hh))).1
  have hcanonical : plan.canonical handle = plan.canonical source :=
    canonical_of_derived heq (Nat.lt_of_lt_of_le hlt hhandle)
  rw [read, hcanonical]
  exact hjoin.read_front hlt

/-- On a pair, the columns of the parent side are those of the left row. -/
theorem Laid.read_parent (hparent : plan.Laid .parent left incoming first middle parent)
    (hpair : SidesWithin first middle last pair) {column : ColumnId}
    (hc : column ∈ parent.id ++ parent.foreignKeys ++ parent.columns) :
    plan.read (Tuple.merge pair) column = pair.1.bind (plan.read · column) := by
  have hliteral := hparent.not_literal hc
  have hlt : plan.canonical column < middle.column := by
    refine Nat.lt_of_le_of_lt (plan.canonical_le column) (hparent.within ?_).2
    rw [Operand.handles]
    exact List.mem_append_left _ hc
  simp only [read_of_not_literal hliteral]
  exact Tuple.value_merge_left hpair hlt

/-- The row number of the parent side is that of the left row, if there is one. -/
theorem Laid.read_parent_rowNumber
    (hparent : plan.Laid .parent left incoming first middle parent) {row : Tuple T V}
    {other : Option (Tuple T V)} (hpair : SidesWithin first middle last (some row, other)) :
    plan.read (Tuple.merge (some row, other)) parent.rowNumber =
      plan.read row parent.rowNumber := by
  rcases hparent.rowNumber_mem with hmem | ⟨-, hliteral⟩
  · rw [hparent.read_parent hpair (List.mem_append_right _ hmem)]
    rfl
  · rw [read_of_literal hliteral, read_of_literal hliteral]

/-- On a pair, the columns of the child side are those of the right row. -/
theorem Laid.read_child (hchild : plan.Laid .child right incoming middle last child)
    (hpair : SidesWithin first middle last pair) {column : ColumnId}
    (hc : column ∈ child.id ++ child.foreignKeys ++ child.columns) :
    plan.read (Tuple.merge pair) column = pair.2.bind (plan.read · column) := by
  have hliteral := hchild.not_literal hc
  have hle : middle.column ≤ plan.canonical column := by
    refine (hchild.within ?_).1
    rw [Operand.handles]
    exact List.mem_append_left _ hc
  simp only [read_of_not_literal hliteral]
  exact Tuple.value_merge_right hpair hle

theorem Laid.read_child_rowNumber (hchild : plan.Laid .child right incoming middle last child)
    (hpair : SidesWithin first middle last pair) :
    plan.read (Tuple.merge pair) child.rowNumber =
      pair.2.bind (plan.read · child.rowNumber) := by
  have hmem : child.rowNumber ∈ child.columns :=
    hchild.rowNumber_mem.resolve_right fun h => absurd h.1 (by simp)
  exact hchild.read_child hpair (List.mem_append_right _ hmem)

theorem Laid.agree_iff (hparent : plan.Laid .parent left incoming first middle parent)
    (hchild : plan.Laid .child right parent.id middle last child)
    (hjoin : plan.HasJoin parent child multiplicity last next join shown) {a b : Tuple T V}
    (ha : a.Within first middle) (hb : b.Within middle last) :
    plan.agree join.conditions a b ↔
      (∀ compared ∈ parent.id.zip child.foreignKeys,
        sameValue (plan.read a compared.1) (plan.read b compared.2)) ∧
      sameValue (plan.read a parent.rowNumber) (plan.read b child.rowNumber) := by
  have hsides : SidesWithin first middle last (some a, some b) :=
    ⟨fun row e => Option.some.inj e ▸ ha, fun row e => Option.some.inj e ▸ hb⟩
  have hcompared : ∀ compared ∈ parent.id.zip child.foreignKeys,
      plan.read (Tuple.merge (some a, some b)) compared.1 = plan.read a compared.1 ∧
        plan.read (Tuple.merge (some a, some b)) compared.2 = plan.read b compared.2 := by
    intro compared hc
    obtain ⟨hl, hr⟩ := List.of_mem_zip hc
    exact ⟨hparent.read_parent hsides (by simp [hl]), hchild.read_child hsides (by simp [hr])⟩
  rw [agree, hjoin.conditions, List.all_append, Bool.and_eq_true, List.all_map, List.all_eq_true]
  simp only [List.all_cons, List.all_nil, Bool.and_true, hparent.read_parent_rowNumber hsides,
    hchild.read_child_rowNumber hsides]
  refine and_congr (forall₂_congr fun compared hc => ?_) Iff.rfl
  simp only [Function.comp_apply, (hcompared compared hc).1, (hcompared compared hc).2]

end Pairs

section Trees

variable [DecidableEq T] {side : Side} {tree left right : JoinTree T C}
  {incoming shown : List ColumnId} {first middle last : Mark} {next : Nat}
  {operand parent child : Operand} {multiplicity : Multiplicity} {join : PlanJoin}
  (db : Database T V)

def pairs (plan : Plan T C) (db : Database T V) (join : PlanJoin) :
    List (Option (Tuple T V) × Option (Tuple T V)) :=
  fullOuter (plan.agree join.conditions) (plan.rows db join.parent) (plan.rows db join.child)

theorem exists_mem_pairs_left {join : PlanJoin} {row : Tuple T V}
    (h : row ∈ plan.rows db join.parent) : ∃ pair ∈ plan.pairs db join, pair.1 = some row :=
  exists_mem_fullOuter_left h

theorem exists_mem_pairs_right {join : PlanJoin} {row : Tuple T V}
    (h : row ∈ plan.rows db join.child) : ∃ pair ∈ plan.pairs db join, pair.2 = some row :=
  exists_mem_fullOuter_right h

theorem Laid.rows_eq (hparent : plan.Laid .parent left incoming first middle parent)
    (hchild : plan.Laid .child right parent.id middle last child)
    (hjoin : plan.HasJoin parent child multiplicity last next join shown) :
    plan.rows db last.select =
      (plan.pairs db join).map (plan.joined join (plan.pairs db join)) := by
  obtain ⟨hlt, hlt'⟩ := hparent.operands_lt hchild hjoin
  rw [rows_join hjoin.select hlt hlt', hjoin.joinRows_eq, pairs]

theorem HasScan.read_scanRow {spec : TableSpec T C} {mark : Mark} {scan : TableScan T}
    (hscan : plan.HasScan spec incoming mark next scan) (position : Nat)
    (own : ColumnId → Option V) {column : ColumnId} (hc : column ∈ scan.allColumns) :
    plan.read (scanRow scan position own) column = own column := by
  have hcanonical := hscan.canonical_eq hc
  rw [read_of_not_literal fun value => hcanonical.symm ▸ hscan.not_literal hc value, hcanonical]
  exact if_pos hc

omit [Domain V] in
theorem mem_scanRows {scan : TableScan T} {row : Tuple T V} :
    row ∈ scanRows db scan ↔
      ∃ position own, (db scan.table)[position]? = some own ∧ row = scanRow scan position own := by
  rw [scanRows, List.mem_mapIdx]
  constructor
  · rintro ⟨position, hposition, rfl⟩
    exact ⟨position, _, List.getElem?_eq_getElem hposition, rfl⟩
  · rintro ⟨position, own, hown, rfl⟩
    obtain ⟨hposition, rfl⟩ := List.getElem?_eq_some_iff.mp hown
    exact ⟨position, hposition, rfl⟩

omit [DecidableEq T] in
/-- The number of a row in a view is its rank among the rows with its foreign keys. -/
theorem read_rowNumber {rowNumber : ColumnId} {partitionBy : List ColumnId}
    (h : plan.columns[rowNumber]? = some (.rowNumber partitionBy)) (rows : List (Tuple T V))
    (position : Nat) (row : Tuple T V) :
    plan.read (row.withValues [rowNumber] (plan.computed rows position row)) rowNumber =
      ofNumber (rank (rows.map (plan.reads partitionBy)) position
        (plan.reads partitionBy row)) := by
  have hcanonical : plan.canonical rowNumber = rowNumber := canonical_of_ne h (by simp)
  rw [read_of_not_literal (by simp [hcanonical, h]), hcanonical,
    Tuple.value_withValues_of_mem List.mem_cons_self, computed, h]

omit [DecidableEq T] in
/-- The number of a row in a view does not change the other columns. -/
theorem HasScan.read_withValues {spec : TableSpec T C} {mark : Mark} {scan : TableScan T}
    (hscan : plan.HasScan spec incoming mark next scan) (row : Tuple T V)
    (value : ColumnId → Option V) {column : ColumnId} (hc : column ∈ scan.allColumns) :
    plan.read (row.withValues [next] value) column = plan.read row column := by
  have hcanonical := hscan.canonical_eq hc
  have hne : plan.canonical column ∉ [next] := fun h => by
    rw [hcanonical, List.mem_singleton] at h
    exact Nat.lt_irrefl _ (h ▸ (hscan.within hc).2)
  rw [read, read, Tuple.value_withValues_of_not_mem hne]

theorem HasScan.read_numbered {spec : TableSpec T C} {mark : Mark} {scan : TableScan T}
    (hscan : plan.HasScan spec incoming mark next scan) (position : Nat)
    (own value : ColumnId → Option V) {column : ColumnId} (hc : column ∈ scan.allColumns) :
    plan.read ((scanRow scan position own).withValues [next] value) column = own column := by
  rw [hscan.read_withValues _ _ hc, hscan.read_scanRow position own hc]

/-- A row of a view is a row of its scan with a number. -/
theorem HasScan.of_mem_view {spec : TableSpec T C} {mark : Mark} {scan : TableScan T}
    (hscan : plan.HasScan spec incoming mark next scan)
    (hview : plan.selects[mark.select + 1]? = some (.view mark.select next)) {row : Tuple T V}
    (hrow : row ∈ plan.rows db (mark.select + 1)) :
    ∃ position own, (db scan.table)[position]? = some own ∧
      row.source = (scanRow (V := V) scan position own).source ∧
      ∀ column ∈ scan.allColumns, plan.read row column = own column := by
  rw [rows_view hview (Nat.lt_succ_self _), rows_scan hscan.select, compute,
    List.mem_mapIdx] at hrow
  obtain ⟨position, hposition, rfl⟩ := hrow
  obtain ⟨place, own, hown, hrow⟩ := (mem_scanRows db).mp (List.getElem_mem hposition)
  rw [hrow]
  exact ⟨place, own, hown, rfl, fun column hc => hscan.read_numbered place own _ hc⟩

omit [Domain V] in
theorem HasScan.within_of_mem {spec : TableSpec T C} {mark : Mark} {scan : TableScan T}
    (hscan : plan.HasScan spec incoming mark next scan) {row : Tuple T V}
    (hrow : row ∈ scanRows db scan) {column : ColumnId} (hne : row.value column ≠ none) :
    mark.column ≤ column ∧ column < next := by
  obtain ⟨position, own, -, rfl⟩ := (mem_scanRows db).mp hrow
  have hc : column ∈ scan.allColumns := by
    by_contra hc
    exact hne (if_neg hc)
  have hrange := hscan.within hc
  rwa [hscan.canonical_eq hc] at hrange

theorem Laid.rows_within (h : plan.Laid side tree incoming first last operand) :
    ∀ row ∈ plan.rows db operand.select, row.Within first last := by
  induction h with
  | @scan spec incoming first next scan hscan =>
      intro row hrow column hne
      change row ∈ plan.rows db first.select at hrow
      rw [rows_scan hscan.select] at hrow
      exact hscan.within_of_mem db hrow hne
  | @view spec incoming first next scan hscan hview hrowNumber =>
      intro row hrow column hne
      change row ∈ plan.rows db (first.select + 1) at hrow
      rw [rows_view hview (Nat.lt_succ_self _), rows_scan hscan.select, compute,
        List.mem_mapIdx] at hrow
      obtain ⟨position, hposition, rfl⟩ := hrow
      by_cases hc : column ∈ [next]
      · rw [List.mem_singleton.mp hc]
        exact ⟨by have := hscan.next_eq; omega, Nat.lt_succ_self _⟩
      · rw [Tuple.value_withValues_of_not_mem hc] at hne
        have hrange := hscan.within_of_mem db (List.getElem_mem hposition) hne
        exact ⟨hrange.1, Nat.lt_succ_of_lt hrange.2⟩
  | @join side left right incoming shown first middle last next parent child multiplicity owner join
      hparent _ hchild hjoin ihp ihc =>
      intro row hrow column hne
      rw [PlanJoin.operand, hparent.rows_eq db hchild hjoin] at hrow
      obtain ⟨pair, hpair, rfl⟩ := List.mem_map.mp hrow
      have hsides := SidesWithin.of_mem (hjoin.parent_eq ▸ ihp) (hjoin.child_eq ▸ ihc) hpair
      have hmiddle := hparent.room.2.2
      have hlast := hchild.room.2.2
      have hnext : last.column ≤ next := by
        rw [hjoin.next_eq]
        exact Nat.le_add_right _ _
      by_cases hc : column ∈ join.ownColumns
      · have hrange := hjoin.mem_range
          (List.mem_append_left shown (List.mem_append_left join.id hc))
        exact ⟨Nat.le_trans (by omega) hrange.1, hrange.2⟩
      · rw [value_joined_of_not_mem hc, Tuple.value_merge] at hne
        cases hleft : pair.1.bind (·.value column) with
        | some v =>
            obtain ⟨row, hrow, hv⟩ := Option.bind_eq_some_iff.mp hleft
            have hrange := hsides.1 row hrow column (by simp [hv])
            exact ⟨hrange.1, Nat.lt_of_lt_of_le hrange.2 (by dsimp only; omega)⟩
        | none =>
            rw [hleft, Option.none_or] at hne
            obtain ⟨v, hv⟩ := Option.ne_none_iff_exists'.mp hne
            obtain ⟨row, hrow, hv⟩ := Option.bind_eq_some_iff.mp hv
            have hrange := hsides.2 row hrow column (by simp [hv])
            exact ⟨Nat.le_trans (by omega) hrange.1, Nat.lt_of_lt_of_le hrange.2 hnext⟩

theorem Laid.sidesWithin (hparent : plan.Laid .parent left incoming first middle parent)
    (hchild : plan.Laid .child right parent.id middle last child)
    (hjoin : plan.HasJoin parent child multiplicity last next join shown)
    {pair : Option (Tuple T V) × Option (Tuple T V)} (hpair : pair ∈ plan.pairs db join) :
    SidesWithin first middle last pair := by
  rw [pairs, hjoin.parent_eq, hjoin.child_eq] at hpair
  exact SidesWithin.of_mem (hparent.rows_within db) (hchild.rows_within db) hpair

end Trees

end Plan

end FlatAggregate
