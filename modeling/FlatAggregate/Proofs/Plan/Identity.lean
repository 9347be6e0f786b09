import FlatAggregate.Plan.Text
import FlatAggregate.Proofs.Builder.Ancestry
import FlatAggregate.Proofs.Plan.Tokens

/-!
# Foreign keys and identities

The foreign keys of a table copy what identifies the rows of its parent: the declared id of the
parent, or else the foreign keys of the parent itself and its key. They are handed down through the
joins of the parent and of its earlier children as derived columns, so the argument is about
functions of columns that look through these (`Plan.Traces`). The table column that a column reads
in the end is such a function, and so is the text of the columns that a table stores.

`TableSpec.identity` is the effective identity of a table for any reading of columns. Read as texts,
it gives the texts of the columns of every scan (`ScanText`), which are thereby determined by the
tables above the scan and by nothing that is added later.
-/

namespace FlatAggregate

variable {T C B : Type}

/-- What identifies a row of a table, when `token` stands for a column of the table and `copy` for
the copy of an ancestor's column. -/
def TableSpec.identity (token : C → B) (copy : T → B → B) (spec : TableSpec T C) (above : List B) :
    List B :=
  match spec.id with
  | some id => [token id]
  | none => above.map (copy spec.table) ++ spec.key.toList.map token

/-- If copies read what they copy, the identity of a table is its effective id. -/
theorem TableSpec.identity_some (spec : TableSpec T C) (above : List C) :
    spec.identity some (fun _ source => source) (above.map some) =
      (spec.effectiveId above).map some := by
  rw [identity, effectiveId]
  cases spec.id <;> simp

def foreignKeyText [ToString T] (table : T) (text : String) : String :=
  "FK(" ++ toString table ++ ", " ++ text ++ ")"

structure ScanText where
  id : Option String
  columns : List String
  foreignKeys : List String
  key : Option String
  rowNumber : String
  deriving DecidableEq

/-- The texts of the columns of a table below others, whose identity has the texts `above`. -/
def TableSpec.text [ToString T] [ToString C] (spec : TableSpec T C) (above : List String) :
    ScanText :=
  { id := spec.id.map toString, columns := spec.columns.map toString
    foreignKeys := above.map (foreignKeyText spec.table), key := spec.key.map toString
    rowNumber := "lit(1)" }

namespace Plan

def scanText [ToString T] [ToString C] (plan : Plan T C) (scan : TableScan T) : ScanText :=
  { id := scan.id.map plan.columnText, columns := scan.columns.map plan.columnText
    foreignKeys := scan.foreignKeys.map plan.columnText, key := scan.key.map plan.columnText
    rowNumber := plan.columnText scan.rowNumber }

/-- A function of columns looks through derived columns and traces foreign keys to what they
reference. -/
structure Traces (plan : Plan T C) (token : C → B) (copy : T → B → B) (trace : ColumnId → B) :
    Prop where
  base : ∀ {column t}, plan.columns[column]? = some (.base t) → trace column = token t
  derived : ∀ {column source}, plan.columns[column]? = some (.derived source) → source < column →
    trace column = trace source
  foreignKey : ∀ {column references owner scan},
    plan.columns[column]? = some (.foreignKey references owner) →
    plan.selects[owner]? = some (.scan scan) → references < column →
    trace column = copy scan.table (trace references)

variable {plan : Plan T C}

theorem traces_sourceColumn (plan : Plan T C) :
    plan.Traces some (fun _ source => source) plan.sourceColumn where
  base := fun h => by rw [sourceColumn, h]
  derived := fun h hlt => by
    rw [sourceColumn, h]
    exact dif_pos hlt
  foreignKey := fun h _ hlt => by
    rw [sourceColumn, h]
    exact dif_pos hlt

theorem traces_columnText [ToString T] [ToString C] (plan : Plan T C) :
    plan.Traces toString foreignKeyText plan.columnText where
  base := fun h => by rw [columnText, h]
  derived := fun h hlt => by
    rw [columnText, h]
    exact dif_pos hlt
  foreignKey := fun {column references owner scan} h hscan hlt => by
    have htable : plan.tableText owner = toString scan.table := by
      rw [tableText, tableOf, hscan]
      rfl
    have htext : earlier column (fun p _ => plan.columnText p) "" references =
        plan.columnText references := dif_pos hlt
    rw [columnText, h]
    simp only [htext, htable, foreignKeyText]

section Tracing

variable {token : C → B} {copy : T → B → B} {trace : ColumnId → B}
  (htraces : plan.Traces token copy trace)

include htraces

section Scans

variable {spec : TableSpec T C} {incoming : List ColumnId} {mark : Mark} {next : Nat}
  {scan : TableScan T}

theorem Traces.map_base {handles : List ColumnId} {tokens : List C}
    (h : plan.Defines handles (tokens.map .base)) : handles.map trace = tokens.map token :=
  h.map_congr fun _ _ _ _ heq => htraces.base heq

theorem Traces.map_option {handle : Option ColumnId} {declared : Option C}
    (h : plan.Defines handle.toList (declared.toList.map .base)) :
    handle.map trace = declared.map token := by
  have hmap := htraces.map_base h
  cases handle <;> cases declared <;> simp_all

theorem Traces.map_foreignKeys (h : plan.HasScan spec incoming mark next scan)
    (hincoming : ∀ c ∈ incoming, c < mark.column) :
    scan.foreignKeys.map trace = (incoming.map trace).map (copy spec.table) := by
  rw [List.map_map]
  refine h.foreignKeys.map_congr fun handle hh source hs heq => ?_
  have hle := (h.mem_range (scan.foreignKeys_subset hh)).1
  rw [htraces.foreignKey heq h.select (Nat.lt_of_lt_of_le (hincoming source hs) hle), h.table]
  rfl

/-- The id columns of a scan are traced to the identity of its table. -/
theorem Traces.map_idColumns (h : plan.HasScan spec incoming mark next scan)
    (hincoming : ∀ c ∈ incoming, c < mark.column) :
    scan.idColumns.map trace = spec.identity token copy (incoming.map trace) := by
  have hid := htraces.map_option h.id
  have hkey := htraces.map_base h.key
  rw [TableScan.idColumns, TableSpec.identity]
  cases hscan : scan.id with
  | some id =>
      rw [hscan] at hid
      cases hspec : spec.id with
      | none => simp [hspec] at hid
      | some declared => simpa [hspec] using hid
  | none =>
      rw [hscan] at hid
      cases hspec : spec.id with
      | some declared => simp [hspec] at hid
      | none => rw [List.map_append, htraces.map_foreignKeys h hincoming, hkey]

end Scans

section Trees

variable {side : Side} {tree : JoinTree T C} {incoming : List ColumnId} {first last : Mark}
  {operand : Operand}

/-- What a select offers as its id is traced to the identity of its left-most table, however many
joins stand in between. -/
theorem Traces.map_id (h : plan.Laid side tree incoming first last operand)
    (hincoming : ∀ c ∈ incoming, c < first.column) :
    operand.id.map trace = tree.rootSpec.identity token copy (incoming.map trace) := by
  induction h with
  | scan hscan => exact htraces.map_idColumns hscan hincoming
  | view hscan _ _ => exact htraces.map_idColumns hscan hincoming
  | @join side left right incoming shown first middle last next parent child multiplicity owner join
      hparent _ hchild hjoin ihp _ =>
      refine Eq.trans ?_ (ihp hincoming)
      refine hjoin.id.map_congr fun handle hh source hs heq => htraces.derived heq ?_
      have hfront := hparent.front hchild source (by simp [Operand.handles, hs])
      have hle := (hjoin.mem_range (List.mem_append_left _ (List.mem_append_right _ hh))).1
      exact Nat.lt_of_lt_of_le hfront hle

/-- Let `identity` be what identifies the rows of each table of a tree. Then every scan copies the
identity of the parent of its table, or, for the left-most table, the incoming columns. -/
theorem Traces.exists_hasScan {identity : T → List B}
    (h : plan.Laid side tree incoming first last operand)
    (hincoming : ∀ c ∈ incoming, c < first.column)
    (hroot : identity tree.rootSpec.table =
      tree.rootSpec.identity token copy (incoming.map trace))
    (hparts : ∀ left right multiplicity owner, .join left right multiplicity owner ∈ tree.parts →
      identity right.rootSpec.table =
        right.rootSpec.identity token copy (identity left.rootSpec.table))
    {select : SelectId} {scan : TableScan T} (hfirst : first.select ≤ select)
    (hlast : select < last.select) (hscan : plan.scanAt select = some scan) :
    ∃ spec copied mark next, plan.HasScan spec copied mark next scan ∧
      (∀ c ∈ copied, c < mark.column) ∧
      (spec = tree.rootSpec ∧ copied.map trace = incoming.map trace ∨
        ∃ left right multiplicity owner, .join left right multiplicity owner ∈ tree.parts ∧
          spec = right.rootSpec ∧ copied.map trace = identity left.rootSpec.table) := by
  induction h with
  | @scan spec incoming first next scan' hscan' =>
      obtain rfl : select = first.select := Nat.le_antisymm (Nat.le_of_lt_succ hlast) hfirst
      obtain rfl : scan' = scan := Option.some.inj (hscan'.scanAt.symm.trans hscan)
      exact ⟨spec, incoming, first, next, hscan', hincoming, .inl ⟨rfl, rfl⟩⟩
  | @view spec incoming first next scan' hscan' hview hrowNumber =>
      rcases Nat.eq_or_lt_of_le hfirst with rfl | hlt
      · obtain rfl : scan' = scan := Option.some.inj (hscan'.scanAt.symm.trans hscan)
        exact ⟨spec, incoming, first, next, hscan', hincoming, .inl ⟨rfl, rfl⟩⟩
      · obtain rfl : select = first.select + 1 := Nat.le_antisymm (Nat.le_of_lt_succ hlast) hlt
        simp [scanAt, hview] at hscan
  | @join side left right incoming shown first middle last next parent child multiplicity owner join
      hparent _ hchild hjoin ihp ihc =>
      -- the child side receives the id of the parent side, which is the identity of its table
      have hid : parent.id.map trace = identity left.rootSpec.table :=
        (htraces.map_id hparent hincoming).trans hroot.symm
      rcases Nat.lt_or_ge select middle.select with hlt | hge
      · obtain ⟨spec, copied, mark, next, hhas, hfront, hcase⟩ := ihp hincoming hroot
          (fun l r m o hpart => hparts l r m o
            (List.mem_cons_of_mem _ (List.mem_append_left _ hpart))) hfirst hlt
        refine ⟨spec, copied, mark, next, hhas, hfront, hcase.imp_right ?_⟩
        rintro ⟨l, r, m, o, hpart, hrest⟩
        exact ⟨l, r, m, o, List.mem_cons_of_mem _ (List.mem_append_left _ hpart), hrest⟩
      · rcases Nat.lt_or_ge select last.select with hlt | hge'
        · have hright : identity right.rootSpec.table =
              right.rootSpec.identity token copy (parent.id.map trace) := by
            rw [hid]
            exact hparts left right multiplicity owner List.mem_cons_self
          obtain ⟨spec, copied, mark, next, hhas, hfront, hcase⟩ := ihc
            (fun c hc => (hparent.within (by simp [Operand.handles, hc])).2) hright
            (fun l r m o hpart => hparts l r m o
              (List.mem_cons_of_mem _ (List.mem_append_right _ hpart))) hge hlt
          refine ⟨spec, copied, mark, next, hhas, hfront, .inr ?_⟩
          rcases hcase with ⟨hspec, hcopied⟩ | ⟨l, r, m, o, hpart, hrest⟩
          · exact ⟨left, right, multiplicity, owner, List.mem_cons_self, hspec, hcopied.trans hid⟩
          · exact ⟨l, r, m, o, List.mem_cons_of_mem _ (List.mem_append_right _ hpart), hrest⟩
        · obtain rfl : select = last.select := Nat.le_antisymm (Nat.le_of_lt_succ hlast) hge'
          simp [scanAt, hjoin.select] at hscan

end Trees

end Tracing

section Scanned

variable {side : Side} {tree : JoinTree T C} {incoming : List ColumnId} {first last : Mark}
  {operand : Operand}

/-- The scans between the marks of a tree are the scans of its tables, one each and in order. -/
theorem Laid.scanned_eq (h : plan.Laid side tree incoming first last operand) :
    (List.range' first.select (last.select - first.select)).filterMap
      (fun select => (plan.scanAt select).map TableScan.table) = tree.tables := by
  induction h with
  | @scan spec incoming first next scan hscan =>
      simp [hscan.scanAt, hscan.table]
  | @view spec incoming first next scan hscan hview hrowNumber =>
      have hnone : plan.scanAt (first.select + 1) = none := by simp [scanAt, hview]
      simp [List.range'_succ, hscan.scanAt, hscan.table, hnone]
  | @join side left right incoming shown first middle last next parent child multiplicity owner join
      hparent _ hchild hjoin ihp ihc =>
      have hnone : plan.scanAt last.select = none := by simp [scanAt, hjoin.select]
      dsimp only
      rw [hparent.range'_selects hchild, List.filterMap_append, List.filterMap_append, ihp, ihc,
        JoinTree.tables_join]
      simp [hnone]

variable {whole : JoinTree T C} {top : Operand}

theorem Laid.existsUnique_scan (hplan : plan.Laid .parent whole [] ⟨0, 0⟩ plan.parts.mark top)
    (hn : whole.tables.Nodup) {t : T} (ht : t ∈ whole.tables) :
    ∃! select, ∃ scan, plan.scanAt select = some scan ∧ scan.table = t := by
  rw [← hplan.scanned_eq] at hn ht
  obtain ⟨select, -, hselect⟩ := List.mem_filterMap.mp ht
  obtain ⟨scan, hscan, htable⟩ := Option.map_eq_some_iff.mp hselect
  refine ⟨select, ⟨scan, hscan, htable⟩, ?_⟩
  rintro select' ⟨scan', hscan', htable'⟩
  have hposition : ∀ {s : SelectId} {found : TableScan T}, plan.scanAt s = some found →
      (List.range' 0 (plan.parts.mark.select - 0))[s]? = some s := fun hfound => by
    simp [lt_of_scanAt hfound]
  exact getElem?_inj_of_nodup_filterMap hn (hposition hscan') (hposition hscan)
    (by rw [hscan', Option.map_some, htable']) (by rw [hscan, Option.map_some, htable])

end Scanned

end Plan

namespace Draft

variable [DecidableEq T] [ToString T] {root : TableSpec T C} {additions : List (Addition T C)}
  {draft : Draft T C} {plan : Plan T C}

theorem assemble_append (h : assemble root additions = .ok draft) (more : List (Addition T C)) :
    assemble root (additions ++ more) = more.foldlM add draft := by
  rw [assemble] at h ⊢
  cases hroot : (empty : Draft T C).addRoot root with
  | error error => simp [hroot, bind, Except.bind] at h
  | ok start =>
      simp only [hroot, bind, Except.bind, List.foldlM_append] at h ⊢
      rw [h]

theorem existsUnique_scan_of_assemble (h : assemble root additions = .ok draft)
    (hplan : draft.plan = .ok plan) {spec : TableSpec T C}
    (hspec : spec ∈ root :: additions.map Addition.spec) :
    ∃! select, ∃ scan, plan.scanAt select = some scan ∧ scan.table = spec.table := by
  obtain ⟨top, hlaid, -, hn, -⟩ := laid_of_assemble h hplan
  refine hlaid.existsUnique_scan hn (List.mem_map_of_mem ?_)
  exact (specs_of_assemble h).mem_iff.mpr hspec

/-- Let `identity` be what identifies the rows of each table. Then the scan of the root copies
nothing, and every other scan the identity of the table that its table is added below. -/
theorem exists_hasScan_of_assemble {token : C → B} {copy : T → B → B} {trace : ColumnId → B}
    (identity : T → List B) (htraces : plan.Traces token copy trace)
    (h : assemble root additions = .ok draft) (hplan : draft.plan = .ok plan)
    (hroot : identity root.table = root.identity token copy [])
    (hadditions : ∀ addition ∈ additions, identity addition.spec.table =
      addition.spec.identity token copy (identity addition.parent))
    {select : SelectId} {scan : TableScan T} (hscan : plan.scanAt select = some scan) :
    ∃ spec copied mark next, plan.HasScan spec copied mark next scan ∧
      (∀ c ∈ copied, c < mark.column) ∧
      (spec = root ∧ copied.map trace = [] ∨
        ∃ addition ∈ additions, spec = addition.spec ∧
          copied.map trace = identity addition.parent) := by
  obtain ⟨top, hlaid, -, -, hspined⟩ := laid_of_assemble h hplan
  have hfirst : (AggregateTree.ofAdditions root additions).joinTree.rootSpec = root :=
    AggregateTree.rootSpec_joinTree _
  -- a join belongs to the table on its parent side and joins an addition to it
  have hpart : ∀ {left right : JoinTree T C} {multiplicity : Multiplicity} {owner : T},
      .join left right multiplicity owner ∈
        (AggregateTree.ofAdditions root additions).joinTree.parts →
      ∃ addition ∈ additions, addition.spec = right.rootSpec ∧
        addition.parent = left.rootSpec.table := fun hmem => by
    obtain ⟨addition, ha, hparent, hspec⟩ := AggregateTree.exists_addition hmem
    obtain ⟨howner, hleft, -⟩ := hspined.of_mem_parts hmem
    exact ⟨addition, ha, hspec, by rw [hparent, JoinTree.table_rootSpec hleft, howner]⟩
  obtain ⟨spec, copied, mark, next, hhas, hfront, hcase⟩ := htraces.exists_hasScan hlaid (by simp)
    (by rw [hfirst]; exact hroot)
    (fun left right multiplicity owner hmem => by
      obtain ⟨addition, ha, hspec, hparent⟩ := hpart hmem
      rw [← hspec, ← hparent]
      exact hadditions addition ha)
    (Nat.zero_le _) (Plan.lt_of_scanAt hscan) hscan
  refine ⟨spec, copied, mark, next, hhas, hfront, ?_⟩
  rcases hcase with ⟨hspec, hcopied⟩ | ⟨left, right, m, o, hmem, hspec, hcopied⟩
  · exact .inl ⟨hspec.trans hfirst, hcopied⟩
  · obtain ⟨addition, ha, hright, hparent⟩ := hpart hmem
    exact .inr ⟨addition, ha, hspec.trans hright.symm, hparent ▸ hcopied⟩

/-- The texts of the columns of a scan are determined by its table and by the texts of what its
table inherits. -/
theorem scanText_of_assemble [ToString C] (h : assemble root additions = .ok draft)
    (hplan : draft.plan = .ok plan) {select : SelectId} {scan : TableScan T}
    (hscan : plan.scanAt select = some scan) :
    scan.table = root.table ∧ plan.scanText scan = root.text [] ∨
      ∃ addition ∈ additions, scan.table = addition.spec.table ∧
        plan.scanText scan = addition.spec.text
          (Addition.inherit (TableSpec.identity toString foreignKeyText) [] root additions
            addition.parent) := by
  have htraces := plan.traces_columnText
  obtain ⟨spec, copied, mark, next, hhas, hfront, hcase⟩ :=
    exists_hasScan_of_assemble _ htraces h hplan
      (Addition.inherit_root (nodup_tables_of_assemble h)) (inherit_of_assemble _ _ h) hscan
  have htext : plan.scanText scan = spec.text (copied.map plan.columnText) := by
    rw [Plan.scanText, TableSpec.text, htraces.map_option hhas.id, htraces.map_base hhas.columns,
      htraces.map_foreignKeys hhas hfront, htraces.map_option hhas.key, Plan.columnText,
      hhas.rowNumber]
    rfl
  rw [htext]
  rcases hcase with ⟨rfl, hcopied⟩ | ⟨addition, ha, rfl, hcopied⟩
  · exact .inl ⟨hhas.table, by rw [hcopied]⟩
  · exact .inr ⟨addition, ha, hhas.table, by rw [hcopied]⟩

theorem addition_unique (h : assemble root additions = .ok draft) {addition : Addition T C}
    (ha : addition ∈ additions) :
    addition.spec.table ≠ root.table ∧ ∀ other ∈ additions,
      other.spec.table = addition.spec.table → other = addition := by
  have hn := nodup_tables_of_assemble h
  rw [List.map_cons, List.nodup_cons, List.map_map] at hn
  refine ⟨fun heq => hn.1 ?_, fun other ho heq => List.inj_on_of_nodup_map hn.2 ho ha heq⟩
  rw [← heq]
  exact List.mem_map_of_mem (f := TableSpec.table ∘ Addition.spec) ha

/-- The id columns of a scan read the effective identity of its table, and its foreign keys read
that of the parent. -/
theorem map_sourceColumn_of_assemble (h : assemble root additions = .ok draft)
    (hplan : draft.plan = .ok plan) {eid : T → List C}
    (hroot : eid root.table = root.effectiveId [])
    (hadditions : ∀ addition ∈ additions,
      eid addition.spec.table = addition.spec.effectiveId (eid addition.parent))
    {select : SelectId} {scan : TableScan T} (hscan : plan.scanAt select = some scan) :
    scan.idColumns.map plan.sourceColumn = (eid scan.table).map some ∧
      (scan.table = root.table → scan.foreignKeys = []) ∧
      ∀ addition ∈ additions, addition.spec.table = scan.table →
        scan.foreignKeys.map plan.sourceColumn = (eid addition.parent).map some := by
  have htraces := plan.traces_sourceColumn
  have hroot' : (eid root.table).map some = root.identity some (fun _ source => source) [] :=
    (congrArg _ hroot).trans (root.identity_some []).symm
  have hadditions' : ∀ addition ∈ additions, (eid addition.spec.table).map some =
      addition.spec.identity some (fun _ source => source) ((eid addition.parent).map some) :=
    fun addition ha => (congrArg _ (hadditions addition ha)).trans
      (addition.spec.identity_some _).symm
  obtain ⟨spec, copied, mark, next, hhas, hfront, hcase⟩ :=
    exists_hasScan_of_assemble (fun t => (eid t).map some) htraces h hplan hroot' hadditions' hscan
  have hid := htraces.map_idColumns hhas hfront
  have hforeign : scan.foreignKeys.map plan.sourceColumn = copied.map plan.sourceColumn :=
    (htraces.map_foreignKeys hhas hfront).trans (List.map_id' _)
  rcases hcase with ⟨rfl, hcopied⟩ | ⟨addition, ha, rfl, hcopied⟩
  · refine ⟨by rw [hid, hcopied, hhas.table, hroot'], fun _ => ?_, fun addition ha heq => ?_⟩
    · exact List.map_eq_nil_iff.mp (hforeign.trans hcopied)
    · exact absurd (heq.trans hhas.table) (addition_unique h ha).1
  · refine ⟨by rw [hid, hcopied, hhas.table, hadditions' addition ha], fun heq => ?_,
      fun other ho heq => ?_⟩
    · exact absurd (hhas.table.symm.trans heq) (addition_unique h ha).1
    · obtain rfl := (addition_unique h ha).2 other ho (heq.trans hhas.table)
      exact hforeign.trans hcopied

/-- Tables that are added afterwards leave the columns of a scan as they are. -/
theorem exists_scanText_eq [ToString C] (h : assemble root additions = .ok draft)
    (hplan : draft.plan = .ok plan) {more : List (Addition T C)} {draft' : Draft T C}
    {plan' : Plan T C} (h' : assemble root (additions ++ more) = .ok draft')
    (hplan' : draft'.plan = .ok plan') {select : SelectId} {scan : TableScan T}
    (hscan : plan.scanAt select = some scan) :
    ∃ select' scan', plan'.scanAt select' = some scan' ∧ scan'.table = scan.table ∧
      plan'.scanText scan' = plan.scanText scan := by
  have hn' := nodup_tables_of_assemble h'
  have hscanned : ∀ {spec : TableSpec T C}, spec ∈ root :: additions.map Addition.spec →
      ∃ select' scan', plan'.scanAt select' = some scan' ∧ scan'.table = spec.table :=
    fun hspec => (existsUnique_scan_of_assemble h' hplan'
      (List.cons_subset_cons _ (List.map_subset _ (List.subset_append_left _ _)) hspec)).exists
  rcases scanText_of_assemble h hplan hscan with ⟨htable, htext⟩ | ⟨addition, ha, htable, htext⟩
  · obtain ⟨select', scan', hscan', htable'⟩ := hscanned List.mem_cons_self
    refine ⟨select', scan', hscan', htable'.trans htable.symm, ?_⟩
    rcases scanText_of_assemble h' hplan' hscan' with ⟨-, htext'⟩ | ⟨other, ho, hother, -⟩
    · rw [htext', htext]
    · exact absurd (hother.symm.trans htable') (addition_unique h' ho).1
  · obtain ⟨select', scan', hscan', htable'⟩ :=
      hscanned (List.mem_cons_of_mem _ (List.mem_map_of_mem ha))
    refine ⟨select', scan', hscan', htable'.trans htable.symm, ?_⟩
    have ha' := List.mem_append_left more ha
    rcases scanText_of_assemble h' hplan' hscan' with ⟨hother, -⟩ | ⟨other, ho, hother, htext'⟩
    · exact absurd (htable'.symm.trans hother) (addition_unique h' ha').1
    · obtain rfl := (addition_unique h' ha').2 other ho (hother.symm.trans htable')
      rw [htext', htext, Addition.inherit_append hn' (parent_mem_of_assemble h other ha)]

/-- Foreign keys copy the effective identity of the parent. A table has as its effective identity
its declared id, or else the effective identity of its parent followed by its key. Every table has
one scan: its foreign keys read the effective identity of the parent of the table, and its id
columns read that of the table. Tables that are added afterwards leave its columns as they are. -/
theorem foreignKeys_eq_effectiveId [ToString C] (h : assemble root additions = .ok draft)
    (hplan : draft.plan = .ok plan) :
    let eid := Addition.inherit TableSpec.effectiveId [] root additions
    (eid root.table = root.effectiveId [] ∧ ∀ addition ∈ additions,
      eid addition.spec.table = addition.spec.effectiveId (eid addition.parent)) ∧
    (∀ spec ∈ root :: additions.map Addition.spec, ∃! select, ∃ scan,
      plan.scanAt select = some scan ∧ scan.table = spec.table) ∧
    (∀ select scan, plan.scanAt select = some scan →
      scan.idColumns.map plan.sourceColumn = (eid scan.table).map some ∧
      (scan.table = root.table → scan.foreignKeys = []) ∧
      ∀ addition ∈ additions, addition.spec.table = scan.table →
        scan.foreignKeys.map plan.sourceColumn = (eid addition.parent).map some) ∧
    ∀ (more : List (Addition T C)) (draft' : Draft T C) (plan' : Plan T C),
      more.foldlM add draft = .ok draft' → draft'.plan = .ok plan' →
      ∀ select scan, plan.scanAt select = some scan →
        ∃ select' scan', plan'.scanAt select' = some scan' ∧ scan'.table = scan.table ∧
          plan'.scanText scan' = plan.scanText scan := by
  have hroot : Addition.inherit TableSpec.effectiveId [] root additions root.table =
      root.effectiveId [] := Addition.inherit_root (nodup_tables_of_assemble h)
  have hadditions := inherit_of_assemble TableSpec.effectiveId [] h
  refine ⟨⟨hroot, hadditions⟩, fun spec hspec => existsUnique_scan_of_assemble h hplan hspec,
    fun select scan hscan => map_sourceColumn_of_assemble h hplan hroot hadditions hscan, ?_⟩
  exact fun more draft' plan' hmore hplan' select scan hscan =>
    exists_scanText_eq h hplan ((assemble_append h more).trans hmore) hplan' hscan

/-- A child without id and key below the root, a grandchild with a key only, and a second child. -/
theorem foreignKeys_eq_effectiveId_chain :
    let root : TableSpec Nat Nat := { table := 0, id := some 10, columns := [11] }
    let additions : List (Addition Nat Nat) :=
      [⟨0, .multiple, { table := 1, key := some 20 }⟩, ⟨1, .single, { table := 2, key := some 30 }⟩,
        ⟨0, .multiple, { table := 3, id := some 40 }⟩]
    let eid := Addition.inherit TableSpec.effectiveId [] root additions
    eid 2 = [10, 20, 30] ∧
    ∃ (draft : Draft Nat Nat) (plan : Plan Nat Nat), assemble root additions = .ok draft ∧
      draft.plan = .ok plan ∧
      (eid root.table = root.effectiveId [] ∧ ∀ addition ∈ additions,
        eid addition.spec.table = addition.spec.effectiveId (eid addition.parent)) ∧
      (∀ spec ∈ root :: additions.map Addition.spec, ∃! select, ∃ scan,
        plan.scanAt select = some scan ∧ scan.table = spec.table) ∧
      (∀ select scan, plan.scanAt select = some scan →
        scan.idColumns.map plan.sourceColumn = (eid scan.table).map some ∧
        (scan.table = root.table → scan.foreignKeys = []) ∧
        ∀ addition ∈ additions, addition.spec.table = scan.table →
          scan.foreignKeys.map plan.sourceColumn = (eid addition.parent).map some) ∧
      ∀ (more : List (Addition Nat Nat)) (draft' : Draft Nat Nat) (plan' : Plan Nat Nat),
        more.foldlM add draft = .ok draft' → draft'.plan = .ok plan' →
        ∀ select scan, plan.scanAt select = some scan →
          ∃ select' scan', plan'.scanAt select' = some scan' ∧ scan'.table = scan.table ∧
            plan'.scanText scan' = plan.scanText scan := by
  intro root additions eid
  obtain ⟨draft, h⟩ : ∃ draft, assemble root additions = .ok draft := ⟨_, rfl⟩
  obtain ⟨-, plan, hplan⟩ := plan_of_assemble h
  exact ⟨by decide, draft, plan, h, hplan, foreignKeys_eq_effectiveId h hplan⟩

end Draft

end FlatAggregate
