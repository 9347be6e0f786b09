import FlatAggregate.Proofs.Plan.Building
import Mathlib.Data.List.Forall2

/-!
# The layout of a built plan

`Plan.Laid` says that a join tree is laid out in a plan between two marks: its entries, and no
others, stand between them, and each is defined by what the tree has at that place. It speaks of the
finished plan only, so facts about built plans are inductions over it, with no parts that grow.

A column that a select shows reads, through derived columns, a canonical column between the marks of
that select. So the two sides of a join never read the same column.

A `Mark` is a place in both lists. `Plan.HasScan` and `Plan.HasJoin` say what stands at a mark for a
table and for a join, and an `Operand` what that is to the join above: `TableScan.operand`,
`TableScan.viewOperand` and `PlanJoin.operand`. `PlanJoin.ownColumns` are the columns that a join
computes, in the order of their handles.
-/

namespace FlatAggregate

variable {T C : Type}

def TableSpec.tokens (spec : TableSpec T C) : List C :=
  spec.id.toList ++ spec.columns ++ spec.key.toList

/-- A place in both lists of a plan: the entries before it are those with smaller handles. -/
structure Mark where
  select : Nat
  column : Nat

def PlanParts.mark (parts : PlanParts T C) : Mark :=
  ⟨parts.selects.size, parts.columns.size⟩

def TableScan.operand (scan : TableScan T) (select : SelectId) : Operand :=
  { select, id := scan.idColumns, rowNumber := scan.rowNumber, foreignKeys := scan.foreignKeys
    columns := scan.allColumns }

theorem TableScan.idColumns_of_id {scan : TableScan T} {id : ColumnId} (h : scan.id = some id) :
    scan.idColumns = [id] := by
  rw [idColumns, h]

theorem TableScan.id_mem_allColumns {scan : TableScan T} {id : ColumnId} (h : scan.id = some id) :
    id ∈ scan.allColumns := by
  simp [allColumns, h]

theorem TableScan.idColumns_subset (scan : TableScan T) : scan.idColumns ⊆ scan.allColumns := by
  intro column h
  rw [idColumns] at h
  cases hid : scan.id with
  | some id =>
      rw [hid, List.mem_singleton] at h
      simp [allColumns, hid, h]
  | none =>
      rw [hid, List.mem_append] at h
      rcases h with h | h <;> simp [allColumns, h]

theorem TableScan.foreignKeys_subset (scan : TableScan T) :
    scan.foreignKeys ⊆ scan.allColumns := by
  intro column h
  simp [allColumns, h]

def TableScan.viewOperand (scan : TableScan T) (select : SelectId) (rowNumber : ColumnId) :
    Operand :=
  { select, id := scan.idColumns, rowNumber, foreignKeys := scan.foreignKeys
    columns := scan.allColumns ++ [rowNumber] }

def PlanJoin.operand (join : PlanJoin) (select : SelectId) : Operand :=
  { select, id := join.id, rowNumber := join.rowNumber, foreignKeys := join.foreignKeys
    columns := join.columns }

def Operand.handles (operand : Operand) : List ColumnId :=
  operand.id ++ operand.foreignKeys ++ operand.columns ++ [operand.rowNumber]

def PlanJoin.ownColumns (join : PlanJoin) : List ColumnId :=
  join.identity ++ [join.rowNumber] ++ join.foreignKeys

namespace Plan

def parts (plan : Plan T C) : PlanParts T C := ⟨plan.selects, plan.columns⟩

def Defines (plan : Plan T C) (handles : List ColumnId) (columns : List (PlanColumn C)) : Prop :=
  List.Forall₂ (fun handle column => plan.columns[handle]? = some column) handles columns

variable (plan : Plan T C)

/-- The scan of a table stands at a mark, its columns and its row number behind it. -/
structure HasScan (spec : TableSpec T C) (incoming : List ColumnId) (mark : Mark)
    (next : Nat) (scan : TableScan T) : Prop where
  select : plan.selects[mark.select]? = some (.scan scan)
  table : scan.table = spec.table
  id : plan.Defines scan.id.toList (spec.id.toList.map .base)
  columns : plan.Defines scan.columns (spec.columns.map .base)
  foreignKeys : plan.Defines scan.foreignKeys (incoming.map (.foreignKey · mark.select))
  key : plan.Defines scan.key.toList (spec.key.toList.map .base)
  rowNumber : plan.columns[scan.rowNumber]? = some (.literal 1)
  allColumns_eq : scan.allColumns = List.range' mark.column scan.allColumns.length
  rowNumber_eq : scan.rowNumber = mark.column + scan.allColumns.length
  next_eq : next = mark.column + scan.allColumns.length + 1

/-- The join of two operands stands at a mark, the columns that it defines behind it; `shown` are
the columns of the operands, shown again. -/
structure HasJoin (parent child : Operand) (multiplicity : Multiplicity) (mark : Mark)
    (next : Nat) (join : PlanJoin) (shown : List ColumnId) : Prop where
  select : plan.selects[mark.select]? = some (.join join)
  parent_eq : join.parent = parent.select
  child_eq : join.child = child.select
  multiplicity_eq : join.multiplicity = multiplicity
  conditions : join.conditions = (parent.id.zip child.foreignKeys).map (fun (l, r) => ⟨l, r⟩) ++
    [⟨parent.rowNumber, child.rowNumber⟩]
  identity : plan.Defines join.identity
    ((parent.id.zip child.foreignKeys).map fun (l, r) => .greatest l r .identity)
  rowNumber : plan.columns[join.rowNumber]? =
    some (.greatest parent.rowNumber child.rowNumber .rowNumber)
  foreignKeys : plan.Defines join.foreignKeys (parent.foreignKeys.map (.maxOver · join.identity))
  id : plan.Defines join.id (parent.id.map .derived)
  shows : plan.Defines shown ((parent.columns ++ child.columns).map .derived)
  columns : join.columns = shown ++ join.ownColumns
  range : join.ownColumns ++ join.id ++ shown =
    List.range' mark.column (join.ownColumns ++ join.id ++ shown).length
  next_eq : next = mark.column + (join.ownColumns ++ join.id ++ shown).length

/-- A tree is laid out between two marks, with foreign keys for the incoming columns. -/
inductive Laid : Side → JoinTree T C → List ColumnId → Mark → Mark → Operand → Prop
  | scan {spec : TableSpec T C} {incoming : List ColumnId} {first : Mark} {next : Nat}
      {scan : TableScan T} (hscan : plan.HasScan spec incoming first next scan) :
    Laid .parent (.table spec) incoming first ⟨first.select + 1, next⟩ (scan.operand first.select)
  | view {spec : TableSpec T C} {incoming : List ColumnId} {first : Mark} {next : Nat}
      {scan : TableScan T} (hscan : plan.HasScan spec incoming first next scan)
      (hview : plan.selects[first.select + 1]? = some (.view first.select next))
      (hrowNumber : plan.columns[next]? = some (.rowNumber scan.foreignKeys)) :
    Laid .child (.table spec) incoming first ⟨first.select + 2, next + 1⟩
      (scan.viewOperand (first.select + 1) next)
  | join {side : Side} {left right : JoinTree T C} {incoming shown : List ColumnId}
      {first middle last : Mark} {next : Nat} {parent child : Operand}
      {multiplicity : Multiplicity} {owner : T} {join : PlanJoin}
      (hparent : Laid .parent left incoming first middle parent)
      (hid : parent.id ≠ [])
      (hchild : Laid .child right parent.id middle last child)
      (hjoin : plan.HasJoin parent child multiplicity last next join shown) :
    Laid side (.join left right multiplicity owner) incoming first ⟨last.select + 1, next⟩
      (join.operand last.select)

end Plan

namespace PlanParts

variable {plan : Plan T C} (parts : PlanParts T C)

theorem defines_addColumns {columns : List (PlanColumn C)}
    (h : (parts.addColumns columns).1.Prefix plan.parts) :
    plan.Defines (List.range' parts.columns.size columns.length) columns := by
  refine List.forall₂_iff_get.mpr ⟨by simp, fun i hi hi' => ?_⟩
  apply h.columns
  simp only [addColumns, List.get_eq_getElem, List.getElem_range', Nat.one_mul]
  rw [← Array.getElem?_toList, Array.toList_appendList, List.getElem?_append_right (by simp)]
  simp [hi']

theorem column_addColumn {column : PlanColumn C}
    (h : (parts.addColumn column).1.Prefix plan.parts) :
    plan.columns[parts.columns.size]? = some column :=
  h.columns (by simp [addColumn])

theorem select_addSelect {select : PlanSelect T}
    (h : (parts.addSelect select).1.Prefix plan.parts) :
    plan.selects[parts.selects.size]? = some select :=
  h.selects (by simp [addSelect])

theorem size_addColumns (columns : List (PlanColumn C)) :
    (parts.addColumns columns).1.columns.size = parts.columns.size + columns.length := by
  simp [addColumns, ← Array.length_toList]

theorem addColumns_handles (columns : List (PlanColumn C)) :
    (parts.addColumns columns).2 = List.range' parts.columns.size columns.length := rfl

theorem hasScan_addScan (spec : TableSpec T C) (incoming : List ColumnId)
    (h : (parts.addScan spec incoming).1.Prefix plan.parts) :
    ∃ scan next, plan.HasScan spec incoming parts.mark next scan ∧
      (parts.addScan spec incoming).2 = scan.operand parts.mark.select ∧
      (parts.addScan spec incoming).1.mark = ⟨parts.mark.select + 1, next⟩ := by
  -- the parts after each of the steps
  let ids := parts.addColumns (spec.id.toList.map .base)
  let columns := ids.1.addColumns (spec.columns.map .base)
  let foreignKeys := columns.1.addColumns (incoming.map (.foreignKey · parts.selects.size))
  let key := foreignKeys.1.addColumns (spec.key.toList.map .base)
  let rowNumber := key.1.addColumn (.literal 1)
  let scan : TableScan T :=
    { table := spec.table, id := ids.2.head?, columns := columns.2, foreignKeys := foreignKeys.2
      key := key.2.head?, rowNumber := rowNumber.2 }
  have h5 : rowNumber.1.Prefix plan.parts := (prefix_addSelect _ (.scan scan)).trans h
  have h4 : key.1.Prefix plan.parts := (prefix_addColumn _ _).trans h5
  have h3 : foreignKeys.1.Prefix plan.parts := (prefix_addColumns _ _).trans h4
  have h2 : columns.1.Prefix plan.parts := (prefix_addColumns _ _).trans h3
  have h1 : ids.1.Prefix plan.parts := (prefix_addColumns _ _).trans h2
  have hid : scan.id.toList = ids.2 := by
    change ids.2.head?.toList = ids.2
    cases hid : spec.id <;> simp [ids, addColumns, hid]
  have hkey : scan.key.toList = key.2 := by
    change key.2.head?.toList = key.2
    cases hkey : spec.key <;> simp [key, addColumns, hkey]
  have hall : scan.allColumns = ids.2 ++ columns.2 ++ foreignKeys.2 ++ key.2 := by
    rw [TableScan.allColumns, hid, hkey]
  have hlength : scan.allColumns.length = spec.id.toList.length + spec.columns.length +
      incoming.length + spec.key.toList.length := by
    simp [hall, ids, columns, foreignKeys, key, addColumns_handles, Nat.add_assoc]
  have hrowNumber : scan.rowNumber = parts.columns.size + scan.allColumns.length := by
    change key.1.columns.size = _
    simp only [key, foreignKeys, columns, ids, size_addColumns, hlength, List.length_map]
    omega
  refine ⟨scan, scan.rowNumber + 1, ?_, rfl, ?_⟩
  · exact
      { select := select_addSelect rowNumber.1 h
        table := rfl
        id := hid ▸ defines_addColumns _ h1
        columns := defines_addColumns _ h2
        foreignKeys := defines_addColumns _ h3
        key := hkey ▸ defines_addColumns _ h4
        rowNumber := column_addColumn _ h5
        allColumns_eq := by
          rw [hlength, hall]
          simp only [ids, columns, foreignKeys, key, addColumns_handles, size_addColumns,
            List.length_map, List.range'_append_1, Nat.add_assoc]
          rfl
        rowNumber_eq := hrowNumber
        next_eq := congrArg (· + 1) hrowNumber }
  · have hsize : rowNumber.1.columns.size = scan.rowNumber + 1 := by
      change (key.1.columns.push _).size = _
      rw [Array.size_push]
      rfl
    have hselects : (parts.addScan spec incoming).1.selects.size = parts.selects.size + 1 := by
      change (parts.selects.push _).size = _
      rw [Array.size_push]
    rw [mark, mark, hselects]
    exact congrArg _ hsize

theorem hasScan_addView (spec : TableSpec T C) (incoming : List ColumnId)
    (h : ((parts.addScan spec incoming).1.addView (parts.addScan spec incoming).2).1.Prefix
      plan.parts) :
    ∃ scan next, plan.HasScan spec incoming parts.mark next scan ∧
      plan.selects[parts.mark.select + 1]? = some (.view parts.mark.select next) ∧
      plan.columns[next]? = some (.rowNumber scan.foreignKeys) ∧
      ((parts.addScan spec incoming).1.addView (parts.addScan spec incoming).2).2 =
        scan.viewOperand (parts.mark.select + 1) next ∧
      ((parts.addScan spec incoming).1.addView (parts.addScan spec incoming).2).1.mark =
        ⟨parts.mark.select + 2, next + 1⟩ := by
  obtain ⟨scan, next, hscan, hoperand, hmark⟩ :=
    parts.hasScan_addScan spec incoming ((prefix_addView _ _).trans h)
  have hselects : (parts.addScan spec incoming).1.selects.size = parts.mark.select + 1 :=
    congrArg Mark.select hmark
  have hcolumns : (parts.addScan spec incoming).1.columns.size = next := congrArg Mark.column hmark
  rw [hoperand] at h ⊢
  let rowNumber := (parts.addScan spec incoming).1.addColumn (.rowNumber scan.foreignKeys)
  have hselect := select_addSelect rowNumber.1 h
  have hcolumn := column_addColumn (parts.addScan spec incoming).1
    ((prefix_addSelect rowNumber.1 _).trans h)
  refine ⟨scan, next, hscan, ?_, ?_, ?_, ?_⟩
  · rw [← hselects, ← hcolumns]
    exact hselect
  · rw [← hcolumns]
    exact hcolumn
  · rw [← hselects, ← hcolumns]
    rfl
  · have hcolumnSize : rowNumber.1.columns.size = next + 1 := by
      simp [rowNumber, addColumn, hcolumns]
    have hselectSize : ((parts.addScan spec incoming).1.addView
        (scan.operand parts.mark.select)).1.selects.size = parts.mark.select + 2 := by
      change ((parts.addScan spec incoming).1.selects.push _).size = _
      rw [Array.size_push, hselects]
    rw [mark, hselectSize]
    exact congrArg _ hcolumnSize

theorem hasJoin_addJoin (parent child : Operand) (multiplicity : Multiplicity)
    (h : (parts.addJoin parent child multiplicity).1.Prefix plan.parts) :
    ∃ join next shown, plan.HasJoin parent child multiplicity parts.mark next join shown ∧
      (parts.addJoin parent child multiplicity).2 = join.operand parts.mark.select ∧
      (parts.addJoin parent child multiplicity).1.mark = ⟨parts.mark.select + 1, next⟩ := by
  let pairs := parent.id.zip child.foreignKeys
  let identity := parts.addColumns (pairs.map fun (l, r) => .greatest l r .identity)
  let rowNumber :=
    identity.1.addColumn (.greatest parent.rowNumber child.rowNumber .rowNumber)
  let foreignKeys := rowNumber.1.addColumns (parent.foreignKeys.map (.maxOver · identity.2))
  let id := foreignKeys.1.addColumns (parent.id.map .derived)
  let shown := id.1.addColumns ((parent.columns ++ child.columns).map .derived)
  let join : PlanJoin :=
    { parent := parent.select, child := child.select, multiplicity
      conditions := pairs.map (fun (l, r) => ⟨l, r⟩) ++ [⟨parent.rowNumber, child.rowNumber⟩]
      id := id.2, identity := identity.2, rowNumber := rowNumber.2, foreignKeys := foreignKeys.2
      columns := shown.2 ++ identity.2 ++ [rowNumber.2] ++ foreignKeys.2 }
  have h5 : shown.1.Prefix plan.parts := (prefix_addSelect _ (.join join)).trans h
  have h4 : id.1.Prefix plan.parts := (prefix_addColumns _ _).trans h5
  have h3 : foreignKeys.1.Prefix plan.parts := (prefix_addColumns _ _).trans h4
  have h2 : rowNumber.1.Prefix plan.parts := (prefix_addColumns _ _).trans h3
  have h1 : identity.1.Prefix plan.parts := (prefix_addColumn _ _).trans h2
  have hrowNumber : rowNumber.1.columns.size = identity.1.columns.size + 1 := by
    simp [rowNumber, addColumn]
  have hall : join.ownColumns ++ join.id ++ shown.2 =
      identity.2 ++ [rowNumber.2] ++ foreignKeys.2 ++ id.2 ++ shown.2 := rfl
  have hlength : (join.ownColumns ++ join.id ++ shown.2).length =
      pairs.length + 1 + parent.foreignKeys.length + parent.id.length +
        (parent.columns ++ child.columns).length := by
    rw [hall]
    simp only [identity, foreignKeys, id, shown, addColumns_handles, List.length_append,
      List.length_range', List.length_map, List.length_singleton]
  have hsize : shown.1.columns.size =
      parts.columns.size + (join.ownColumns ++ join.id ++ shown.2).length := by
    rw [hlength]
    simp only [shown, id, foreignKeys, size_addColumns, hrowNumber, identity, List.length_map]
    omega
  refine ⟨join, parts.mark.column + (join.ownColumns ++ join.id ++ shown.2).length, shown.2,
    ?_, rfl, ?_⟩
  · exact
      { select := select_addSelect shown.1 h
        parent_eq := rfl
        child_eq := rfl
        multiplicity_eq := rfl
        conditions := rfl
        identity := defines_addColumns _ h1
        rowNumber := column_addColumn _ h2
        foreignKeys := defines_addColumns _ h3
        id := defines_addColumns _ h4
        shows := defines_addColumns _ h5
        columns := by
          change shown.2 ++ identity.2 ++ [rowNumber.2] ++ foreignKeys.2 = _
          rw [PlanJoin.ownColumns, List.append_assoc, List.append_assoc, List.append_assoc]
        range := by
          have hone : [rowNumber.2] = List.range' identity.1.columns.size 1 := rfl
          rw [hlength, hall, hone]
          simp only [shown, id, foreignKeys, addColumns_handles, size_addColumns, hrowNumber]
          simp only [identity, addColumns_handles, size_addColumns, List.length_map, Nat.add_assoc,
            List.range'_append_1]
          rfl
        next_eq := rfl }
  · have hselects : (parts.addJoin parent child multiplicity).1.selects.size =
        parts.selects.size + 1 := by
      change (parts.selects.push _).size = _
      rw [Array.size_push]
    rw [mark, mark, hselects]
    exact congrArg _ hsize

end PlanParts

theorem Builds.laid {plan : Plan T C} {side : Side} {before after : PlanParts T C}
    {tree : JoinTree T C} {incoming : List ColumnId} {operand : Operand}
    (h : Builds side before tree incoming after operand) (hgrows : after.Prefix plan.parts) :
    plan.Laid side tree incoming before.mark after.mark operand := by
  induction h with
  | scan before spec incoming =>
      obtain ⟨scan, next, hscan, hoperand, hmark⟩ := before.hasScan_addScan spec incoming hgrows
      rw [hoperand, hmark]
      exact .scan hscan
  | view before spec incoming =>
      obtain ⟨scan, next, hscan, hview, hrowNumber, hoperand, hmark⟩ :=
        before.hasScan_addView spec incoming hgrows
      rw [hoperand, hmark]
      exact .view hscan hview hrowNumber
  | @join side before middle last left right incoming parent child multiplicity owner hparent hid
      hchild ihp ihc =>
      obtain ⟨join, next, shown, hjoin, hoperand, hmark⟩ :=
        last.hasJoin_addJoin parent child multiplicity hgrows
      have hlast := (last.prefix_addJoin parent child multiplicity).trans hgrows
      rw [hoperand, hmark]
      exact .join (ihp (hchild.grows.trans hlast)) hid (ihc hlast) hjoin

namespace Plan

variable {plan : Plan T C}

section Canonical

theorem canonical_of_derived {column source : ColumnId}
    (h : plan.columns[column]? = some (.derived source)) (hlt : source < column) :
    plan.canonical column = plan.canonical source := by
  rw [canonical, h]
  exact dif_pos hlt

theorem canonical_of_ne {column : ColumnId} {definition : PlanColumn C}
    (h : plan.columns[column]? = some definition) (hne : ∀ source, definition ≠ .derived source) :
    plan.canonical column = column := by
  rw [canonical, h]
  cases definition with
  | derived source => exact absurd rfl (hne source)
  | _ => rfl

theorem canonical_le (plan : Plan T C) (column : ColumnId) : plan.canonical column ≤ column := by
  induction column using Nat.strongRecOn with
  | ind column ih =>
    rw [canonical]
    split
    · rw [earlier]
      split
      · exact Nat.le_trans (ih _ ‹_›) (Nat.le_of_lt ‹_›)
      · exact Nat.le_refl _
    · exact Nat.le_refl _

theorem canonical_canonical (plan : Plan T C) (column : ColumnId) :
    plan.canonical (plan.canonical column) = plan.canonical column := by
  induction column using Nat.strongRecOn with
  | ind column ih =>
    by_cases hself : plan.canonical column = column
    · rw [hself, hself]
    · -- a column that does not stand for itself shows an earlier one
      have hstep : ∃ source, source < column ∧ plan.canonical column = plan.canonical source := by
        rw [canonical] at hself ⊢
        split at hself
        · rename_i source _
          by_cases hlt : source < column
          · exact ⟨source, hlt, dif_pos hlt⟩
          · exact absurd (dif_neg hlt) hself
        · exact absurd rfl hself
      obtain ⟨source, hlt, heq⟩ := hstep
      rw [heq, ih source hlt]

end Canonical

/-- Each of the columns defined from a list is made from one entry of it. -/
theorem Defines.exists_source {S : Type} {handles : List ColumnId} {sources : List S}
    {define : S → PlanColumn C} (h : plan.Defines handles (sources.map define))
    {handle : ColumnId} (hmem : handle ∈ handles) :
    ∃ source ∈ sources, plan.columns[handle]? = some (define source) := by
  rw [Defines, List.forall₂_map_right_iff] at h
  induction h with
  | nil => simp at hmem
  | cons hhead _ ih =>
      rcases List.mem_cons.mp hmem with rfl | hmem
      · exact ⟨_, List.mem_cons_self, hhead⟩
      · obtain ⟨source, hs, hd⟩ := ih hmem
        exact ⟨source, List.mem_cons_of_mem _ hs, hd⟩

theorem Defines.map_congr {S B : Type} {handles : List ColumnId} {sources : List S}
    {define : S → PlanColumn C} {f : ColumnId → B} {g : S → B}
    (h : plan.Defines handles (sources.map define))
    (hfg : ∀ handle ∈ handles, ∀ source ∈ sources,
      plan.columns[handle]? = some (define source) → f handle = g source) :
    handles.map f = sources.map g := by
  rw [Defines, List.forall₂_map_right_iff] at h
  induction h with
  | nil => rfl
  | @cons handle source handles sources hhead htail ih =>
      rw [List.map_cons, List.map_cons,
        hfg handle List.mem_cons_self source List.mem_cons_self hhead,
        ih fun a ha b hb => hfg a (List.mem_cons_of_mem _ ha) b (List.mem_cons_of_mem _ hb)]

theorem Defines.map_canonical {handles sources : List ColumnId}
    (h : plan.Defines handles (sources.map .derived))
    (hlt : ∀ handle ∈ handles, ∀ source ∈ sources, source < handle) :
    handles.map plan.canonical = sources.map plan.canonical :=
  h.map_congr fun handle hh source hs heq => canonical_of_derived heq (hlt handle hh source hs)

section Scans

variable {spec : TableSpec T C} {incoming : List ColumnId} {mark : Mark} {next : Nat}
  {scan : TableScan T}

theorem HasScan.scanAt (h : plan.HasScan spec incoming mark next scan) :
    plan.scanAt mark.select = some scan := by
  rw [Plan.scanAt, h.select]

/-- A column that a table stores is a column of its own or a copy of an ancestor's id column. -/
theorem HasScan.stored (h : plan.HasScan spec incoming mark next scan) {column : ColumnId}
    (hc : column ∈ scan.allColumns) :
    (∃ token ∈ spec.tokens, plan.columns[column]? = some (.base token)) ∨
      ∃ references ∈ incoming, column ∈ scan.foreignKeys ∧
        plan.columns[column]? = some (.foreignKey references mark.select) := by
  have hbase : ∀ {handles : List ColumnId} {tokens : List C}, tokens ⊆ spec.tokens →
      plan.Defines handles (tokens.map .base) → column ∈ handles →
        ∃ token ∈ spec.tokens, plan.columns[column]? = some (.base token) := fun hsub hd hmem => by
    obtain ⟨token, htoken, heq⟩ := hd.exists_source hmem
    exact ⟨token, hsub htoken, heq⟩
  simp only [TableScan.allColumns, List.mem_append, or_assoc] at hc
  rcases hc with hc | hc | hc | hc
  · exact .inl (hbase (fun _ ht => by simp [TableSpec.tokens, ht]) h.id hc)
  · exact .inl (hbase (fun _ ht => by simp [TableSpec.tokens, ht]) h.columns hc)
  · obtain ⟨references, hr, heq⟩ := h.foreignKeys.exists_source hc
    exact .inr ⟨references, hr, hc, heq⟩
  · exact .inl (hbase (fun _ ht => by simp [TableSpec.tokens, ht]) h.key hc)

theorem HasScan.not_literal (h : plan.HasScan spec incoming mark next scan) {column : ColumnId}
    (hc : column ∈ scan.allColumns) (value : Int64) :
    plan.columns[column]? ≠ some (.literal value) := by
  rcases h.stored hc with ⟨token, -, heq⟩ | ⟨references, -, -, heq⟩ <;> simp [heq]

theorem HasScan.canonical_eq (h : plan.HasScan spec incoming mark next scan) {column : ColumnId}
    (hc : column ∈ scan.allColumns) : plan.canonical column = column := by
  rcases h.stored hc with ⟨token, -, heq⟩ | ⟨references, -, -, heq⟩
  · exact canonical_of_ne heq (by simp)
  · exact canonical_of_ne heq (by simp)

theorem HasScan.mem_range (h : plan.HasScan spec incoming mark next scan) {column : ColumnId}
    (hc : column ∈ scan.allColumns) :
    mark.column ≤ column ∧ column < mark.column + scan.allColumns.length := by
  rw [h.allColumns_eq] at hc
  exact List.mem_range'_1.mp hc

theorem HasScan.within (h : plan.HasScan spec incoming mark next scan) {column : ColumnId}
    (hc : column ∈ scan.allColumns) : mark.column ≤ plan.canonical column ∧ column < next := by
  have hrange := h.mem_range hc
  rw [h.canonical_eq hc, h.next_eq]
  exact ⟨hrange.1, Nat.lt_succ_of_lt hrange.2⟩

end Scans

section Joins

variable {parent child : Operand} {multiplicity : Multiplicity} {mark : Mark} {next : Nat}
  {join : PlanJoin} {shown : List ColumnId}

theorem HasJoin.mem_range (h : plan.HasJoin parent child multiplicity mark next join shown)
    {column : ColumnId} (hc : column ∈ join.ownColumns ++ join.id ++ shown) :
    mark.column ≤ column ∧ column < next := by
  rw [h.range] at hc
  rw [h.next_eq]
  exact List.mem_range'_1.mp hc

theorem HasJoin.nodup (h : plan.HasJoin parent child multiplicity mark next join shown) :
    (join.ownColumns ++ join.id ++ shown).Nodup := by
  rw [h.range]
  exact List.nodup_range'

theorem HasJoin.identity_lt (h : plan.HasJoin parent child multiplicity mark next join shown)
    {key column : ColumnId} (hkey : key ∈ join.identity) (hc : column ∈ join.foreignKeys) :
    key < column := by
  have hsorted : (join.ownColumns ++ join.id ++ shown).Pairwise (· < ·) := by
    rw [h.range]
    exact List.pairwise_lt_range'
  rw [List.append_assoc, List.pairwise_append, PlanJoin.ownColumns, List.pairwise_append] at hsorted
  exact hsorted.1.2.2 key (List.mem_append_left _ hkey) column hc

theorem HasJoin.greatest_of_mem (h : plan.HasJoin parent child multiplicity mark next join shown)
    {column : ColumnId} (hc : column ∈ join.identity ++ [join.rowNumber]) :
    ∃ left right role, plan.columns[column]? = some (.greatest left right role) := by
  rcases List.mem_append.mp hc with hc | hc
  · obtain ⟨pair, -, heq⟩ := h.identity.exists_source hc
    exact ⟨_, _, _, heq⟩
  · rw [List.mem_singleton.mp hc]
    exact ⟨_, _, _, h.rowNumber⟩

theorem HasJoin.maxOver_of_mem (h : plan.HasJoin parent child multiplicity mark next join shown)
    {column : ColumnId} (hc : column ∈ join.foreignKeys) :
    ∃ source ∈ parent.foreignKeys,
      plan.columns[column]? = some (.maxOver source join.identity) :=
  h.foreignKeys.exists_source hc

theorem HasJoin.computes (h : plan.HasJoin parent child multiplicity mark next join shown)
    {column : ColumnId} (hc : column ∈ join.ownColumns) :
    (∃ left right role, plan.columns[column]? = some (.greatest left right role)) ∨
      ∃ source ∈ parent.foreignKeys,
        plan.columns[column]? = some (.maxOver source join.identity) := by
  rcases List.mem_append.mp hc with hc | hc
  · exact .inl (h.greatest_of_mem hc)
  · exact .inr (h.maxOver_of_mem hc)

theorem HasJoin.canonical_own (h : plan.HasJoin parent child multiplicity mark next join shown)
    {column : ColumnId} (hc : column ∈ join.ownColumns) : plan.canonical column = column := by
  rcases h.computes hc with ⟨_, _, _, heq⟩ | ⟨_, -, heq⟩ <;> exact canonical_of_ne heq (by simp)

theorem HasJoin.not_literal (h : plan.HasJoin parent child multiplicity mark next join shown)
    {column : ColumnId} (hc : column ∈ join.ownColumns) (value : Int64) :
    plan.columns[column]? ≠ some (.literal value) := by
  rcases h.computes hc with ⟨_, _, _, heq⟩ | ⟨_, -, heq⟩ <;> simp [heq]

theorem HasJoin.map_canonical_id
    (h : plan.HasJoin parent child multiplicity mark next join shown)
    (hfront : ∀ column ∈ parent.handles ++ child.handles, column < mark.column) :
    join.id.map plan.canonical = parent.id.map plan.canonical := by
  refine h.id.map_canonical fun handle hh source hs => Nat.lt_of_lt_of_le (hfront source ?_) ?_
  · simp [Operand.handles, hs]
  · exact (h.mem_range (List.mem_append_left _ (List.mem_append_right _ hh))).1

theorem HasJoin.map_canonical_shown
    (h : plan.HasJoin parent child multiplicity mark next join shown)
    (hfront : ∀ column ∈ parent.handles ++ child.handles, column < mark.column) :
    shown.map plan.canonical = (parent.columns ++ child.columns).map plan.canonical := by
  refine h.shows.map_canonical fun handle hh source hs => Nat.lt_of_lt_of_le (hfront source ?_) ?_
  · rcases List.mem_append.mp hs with hs | hs <;> simp [Operand.handles, hs]
  · exact (h.mem_range (List.mem_append_right _ hh)).1

/-- What a join offers is its own, or shows again what one of its operands offers. -/
theorem HasJoin.own_or_shows (h : plan.HasJoin parent child multiplicity mark next join shown)
    (hfront : ∀ column ∈ parent.handles ++ child.handles, column < mark.column)
    {column : ColumnId} (hc : column ∈ join.id ++ join.foreignKeys ++ join.columns) :
    column ∈ join.ownColumns ∨ column ∈ join.ownColumns ++ join.id ++ shown ∧
      ∃ source ∈ parent.id ++ (parent.columns ++ child.columns),
        plan.canonical source = plan.canonical column := by
  have hshows : ∀ {handles sources : List ColumnId},
      handles.map plan.canonical = sources.map plan.canonical → column ∈ handles →
      ∃ source ∈ sources, plan.canonical source = plan.canonical column :=
    fun hmap hmem => List.mem_map.mp (hmap ▸ List.mem_map_of_mem hmem)
  rw [h.columns] at hc
  simp only [List.mem_append] at hc
  rcases hc with (hc | hc) | hc | hc
  · obtain ⟨source, hs, heq⟩ := hshows (h.map_canonical_id hfront) hc
    exact .inr ⟨by simp [hc], source, List.mem_append_left _ hs, heq⟩
  · exact .inl (by simp [PlanJoin.ownColumns, hc])
  · obtain ⟨source, hs, heq⟩ := hshows (h.map_canonical_shown hfront) hc
    exact .inr ⟨by simp [hc], source, List.mem_append_right _ hs, heq⟩
  · exact .inl hc

/-- All columns of a join stand behind the bound behind which those of its operands stand. -/
theorem HasJoin.within (h : plan.HasJoin parent child multiplicity mark next join shown)
    {bound : Nat} (hbound : bound ≤ mark.column)
    (hoperands : ∀ column ∈ parent.handles ++ child.handles,
      bound ≤ plan.canonical column ∧ column < mark.column)
    {select : SelectId} {column : ColumnId} (hc : column ∈ (join.operand select).handles) :
    bound ≤ plan.canonical column ∧ column < next := by
  have hoffered : column ∈ join.ownColumns ∨ column ∈ join.ownColumns ++ join.id ++ shown ∧
      ∃ source ∈ parent.id ++ (parent.columns ++ child.columns),
        plan.canonical source = plan.canonical column := by
    rcases List.mem_append.mp hc with hc | hc
    · exact h.own_or_shows (fun c hc => (hoperands c hc).2) hc
    · rw [List.mem_singleton.mp hc]
      exact .inl (by simp [PlanJoin.ownColumns, PlanJoin.operand])
  rcases hoffered with hown | ⟨hmem, source, hs, heq⟩
  · have hrange := h.mem_range (List.mem_append_left shown (List.mem_append_left join.id hown))
    rw [h.canonical_own hown]
    exact ⟨Nat.le_trans hbound hrange.1, hrange.2⟩
  · have hsource : source ∈ parent.handles ++ child.handles := by
      simp only [List.mem_append] at hs
      rcases hs with hs | hs | hs <;> simp [Operand.handles, hs]
    exact ⟨heq ▸ (hoperands source hsource).1, (h.mem_range hmem).2⟩

end Joins

section Marks

variable {side : Side} {tree : JoinTree T C} {incoming : List ColumnId} {first last : Mark}
  {operand : Operand}

theorem Laid.room (h : plan.Laid side tree incoming first last operand) :
    first.select ≤ operand.select ∧ operand.select < last.select ∧ first.column < last.column := by
  induction h with
  | scan hscan =>
      have hnext := hscan.next_eq
      exact ⟨Nat.le_refl _, Nat.lt_succ_self _, by dsimp only; omega⟩
  | view hscan _ _ =>
      have hnext := hscan.next_eq
      exact ⟨Nat.le_succ _, Nat.lt_succ_self _, by dsimp only; omega⟩
  | join _ _ _ hjoin ihp ihc =>
      have hnext := hjoin.next_eq
      have hleft := Nat.le_trans ihp.1 (Nat.le_of_lt ihp.2.1)
      have hright := Nat.le_trans ihc.1 (Nat.le_of_lt ihc.2.1)
      exact ⟨Nat.le_trans hleft hright, Nat.lt_succ_self _, by dsimp only; omega⟩

theorem Laid.sides_lt {left right : JoinTree T C} {middle : Mark} {parent child : Operand}
    (hparent : plan.Laid .parent left incoming first middle parent)
    (hchild : plan.Laid .child right parent.id middle last child) :
    parent.select < last.select ∧ child.select < last.select :=
  ⟨Nat.lt_of_lt_of_le hparent.room.2.1 (Nat.le_trans hchild.room.1 (Nat.le_of_lt hchild.room.2.1)),
    hchild.room.2.1⟩

theorem Laid.operands_lt {left right : JoinTree T C} {middle : Mark} {parent child : Operand}
    {multiplicity : Multiplicity} {next : Nat} {join : PlanJoin} {shown : List ColumnId}
    (hparent : plan.Laid .parent left incoming first middle parent)
    (hchild : plan.Laid .child right parent.id middle last child)
    (hjoin : plan.HasJoin parent child multiplicity last next join shown) :
    join.parent < last.select ∧ join.child < last.select := by
  rw [hjoin.parent_eq, hjoin.child_eq]
  exact hparent.sides_lt hchild

/-- The selects of a join are those of its two sides and then its own. -/
theorem Laid.range'_selects {left right : JoinTree T C} {middle : Mark} {parent child : Operand}
    (hparent : plan.Laid .parent left incoming first middle parent)
    (hchild : plan.Laid .child right parent.id middle last child) :
    List.range' first.select (last.select + 1 - first.select) =
      List.range' first.select (middle.select - first.select) ++
        List.range' middle.select (last.select - middle.select) ++ [last.select] := by
  have hleft := Nat.le_trans hparent.room.1 (Nat.le_of_lt hparent.room.2.1)
  have hright := Nat.le_trans hchild.room.1 (Nat.le_of_lt hchild.room.2.1)
  have hsum : last.select + 1 - first.select =
      (middle.select - first.select) + (last.select - middle.select) + 1 := by omega
  rw [hsum, List.range'_concat, ← List.range'_append_1, Nat.add_sub_cancel' hleft]
  congr 2
  omega

theorem Laid.select_lt_size (h : plan.Laid side tree incoming first last operand) :
    operand.select < plan.selects.size := by
  cases h with
  | scan hscan => exact (Array.getElem?_eq_some_iff.mp hscan.select).1
  | view _ hview _ => exact (Array.getElem?_eq_some_iff.mp hview).1
  | join _ _ _ hjoin => exact (Array.getElem?_eq_some_iff.mp hjoin.select).1

/-- What a select offers to a join is what the plan says about the select. -/
theorem Laid.offers (h : plan.Laid side tree incoming first last operand) :
    plan.columnsOf operand.select = operand.columns ∧ plan.idOf operand.select = operand.id ∧
      plan.foreignKeysOf operand.select = operand.foreignKeys ∧
      plan.rowNumberOf operand.select = some operand.rowNumber := by
  cases h with
  | scan hscan =>
      simp [columnsOf, idOf, foreignKeysOf, rowNumberOf, TableScan.operand, hscan.select]
  | view hscan hview _ =>
      simp [columnsOf, idOf, foreignKeysOf, rowNumberOf, TableScan.viewOperand, hview, hscan.scanAt]
  | join _ _ _ hjoin =>
      simp [columnsOf, idOf, foreignKeysOf, rowNumberOf, PlanJoin.operand, hjoin.select]

theorem Laid.ownColumns_subset (h : plan.Laid side tree incoming first last operand)
    {join : PlanJoin} (hjoin : plan.selects[operand.select]? = some (.join join)) :
    join.ownColumns ⊆ operand.columns := by
  cases h with
  | scan hscan => simp [TableScan.operand, hscan.select] at hjoin
  | view _ hview _ => simp [TableScan.viewOperand, hview] at hjoin
  | join _ _ _ hlaid =>
      obtain rfl : _ = join := by simpa [PlanJoin.operand, hlaid.select] using hjoin
      rw [PlanJoin.operand, hlaid.columns]
      exact List.subset_append_right _ _

/-- All columns of a tree stand between its marks, and so do those that they show again. -/
theorem Laid.within (h : plan.Laid side tree incoming first last operand) {column : ColumnId}
    (hc : column ∈ operand.handles) :
    first.column ≤ plan.canonical column ∧ column < last.column := by
  induction h generalizing column with
  | @scan spec incoming first next scan hscan =>
      simp only [Operand.handles, TableScan.operand, List.mem_append, List.mem_singleton] at hc
      rcases hc with ((hc | hc) | hc) | rfl
      · exact hscan.within (scan.idColumns_subset hc)
      · exact hscan.within (scan.foreignKeys_subset hc)
      · exact hscan.within hc
      · rw [canonical_of_ne hscan.rowNumber (by simp), hscan.rowNumber_eq, hscan.next_eq]
        exact ⟨Nat.le_add_right _ _, Nat.lt_succ_self _⟩
  | @view spec incoming first next scan hscan hview hrowNumber =>
      have hstored : ∀ c ∈ scan.allColumns, first.column ≤ plan.canonical c ∧ c < next + 1 :=
        fun c hc => ⟨(hscan.within hc).1, Nat.lt_succ_of_lt (hscan.within hc).2⟩
      simp only [Operand.handles, TableScan.viewOperand, List.mem_append, List.mem_singleton] at hc
      rcases hc with ((hc | hc) | hc | rfl) | rfl
      · exact hstored _ (scan.idColumns_subset hc)
      · exact hstored _ (scan.foreignKeys_subset hc)
      · exact hstored _ hc
      all_goals
        have hnext := hscan.next_eq
        rw [canonical_of_ne hrowNumber (by simp)]
        exact ⟨by omega, Nat.lt_succ_self _⟩
  | @join side left right incoming shown first middle last next parent child multiplicity owner join
      hparent _ hchild hjoin ihp ihc =>
      have hleft := hparent.room.2.2
      have hright := hchild.room.2.2
      refine hjoin.within (Nat.le_of_lt (Nat.lt_trans hleft hright)) (fun c hc => ?_) hc
      rcases List.mem_append.mp hc with hc | hc
      · exact ⟨(ihp hc).1, Nat.lt_trans (ihp hc).2 hright⟩
      · exact ⟨Nat.le_trans (Nat.le_of_lt hleft) (ihc hc).1, (ihc hc).2⟩

/-- Everything that the operands of a join speak of stands in front of the join. -/
theorem Laid.front {left right : JoinTree T C} {middle : Mark} {parent child : Operand}
    (hparent : plan.Laid .parent left incoming first middle parent)
    (hchild : plan.Laid .child right parent.id middle last child) :
    ∀ column ∈ parent.handles ++ child.handles, column < last.column := by
  intro column hc
  rcases List.mem_append.mp hc with hc | hc
  · exact Nat.lt_trans (hparent.within hc).2 hchild.room.2.2
  · exact (hchild.within hc).2

/-- The columns of a tree, apart from the row number of a bare scan, are not literals. -/
theorem Laid.not_literal (h : plan.Laid side tree incoming first last operand)
    {column : ColumnId} (hc : column ∈ operand.id ++ operand.foreignKeys ++ operand.columns)
    (value : Int64) : plan.columns[plan.canonical column]? ≠ some (.literal value) := by
  induction h generalizing column with
  | @scan spec incoming first next scan hscan =>
      have hmem : column ∈ scan.allColumns := by
        simp only [TableScan.operand, List.mem_append] at hc
        rcases hc with (hc | hc) | hc
        · exact scan.idColumns_subset hc
        · exact scan.foreignKeys_subset hc
        · exact hc
      rw [hscan.canonical_eq hmem]
      exact hscan.not_literal hmem value
  | @view spec incoming first next scan hscan hview hrowNumber =>
      have hmem : column ∈ scan.allColumns ∨ column = next := by
        simp only [TableScan.viewOperand, List.mem_append, List.mem_singleton] at hc
        rcases hc with (hc | hc) | hc
        · exact .inl (scan.idColumns_subset hc)
        · exact .inl (scan.foreignKeys_subset hc)
        · exact hc
      rcases hmem with hmem | rfl
      · rw [hscan.canonical_eq hmem]
        exact hscan.not_literal hmem value
      · rw [canonical_of_ne hrowNumber (by simp), hrowNumber]
        simp
  | @join side left right incoming shown first middle last next parent child multiplicity owner join
      hparent _ hchild hjoin ihp ihc =>
      rcases hjoin.own_or_shows (hparent.front hchild) hc with hown | ⟨-, source, hs, heq⟩
      · rw [hjoin.canonical_own hown]
        exact hjoin.not_literal hown value
      · rw [← heq]
        simp only [List.mem_append] at hs
        rcases hs with hs | hs | hs
        · exact ihp (by simp [hs])
        · exact ihp (by simp [hs])
        · exact ihc (by simp [hs])

/-- The row number of a tree is one of its columns, or of a bare scan and the number 1. -/
theorem Laid.rowNumber_mem (h : plan.Laid side tree incoming first last operand) :
    operand.rowNumber ∈ operand.columns ∨
      side = .parent ∧ plan.columns[plan.canonical operand.rowNumber]? = some (.literal 1) := by
  cases h with
  | scan hscan =>
      refine .inr ⟨rfl, ?_⟩
      have hrowNumber := hscan.rowNumber
      rw [TableScan.operand, canonical_of_ne hrowNumber (by simp), hrowNumber]
  | view hscan _ _ => exact .inl (by simp [TableScan.viewOperand])
  | join _ _ _ hjoin =>
      exact .inl (by simp [PlanJoin.operand, hjoin.columns, PlanJoin.ownColumns])

theorem Laid.length_foreignKeys (h : plan.Laid side tree incoming first last operand) :
    operand.foreignKeys.length = incoming.length := by
  induction h with
  | scan hscan => exact (List.Forall₂.length_eq hscan.foreignKeys).trans (List.length_map _)
  | view hscan _ _ => exact (List.Forall₂.length_eq hscan.foreignKeys).trans (List.length_map _)
  | join _ _ _ hjoin ihp _ =>
      exact (List.Forall₂.length_eq hjoin.foreignKeys).trans ((List.length_map _).trans ihp)

theorem Laid.exists_compared {right : JoinTree T C} {parent child : Operand}
    (hchild : plan.Laid .child right parent.id first last child) (hid : parent.id ≠ []) :
    ∃ compared, compared ∈ parent.id.zip child.foreignKeys := by
  apply List.exists_mem_of_length_pos
  rw [List.length_zip, hchild.length_foreignKeys, Nat.min_self]
  exact List.length_pos_of_ne_nil hid

end Marks

end Plan

end FlatAggregate
