import FlatAggregate.Plan.Lowering
import FlatAggregate.Proofs.Alias.Asking
import FlatAggregate.Proofs.Plan.Tokens

/-!
# The names of a built plan

A name source that knows the tables of a plan names every column that a table stores: a base column
by its token, a foreign key by its table and the token that it copies in the end. And every column
that a select shows has an alias. Two columns of one select show different canonical columns, so if
the tokens of the tables are distinct, their aliases differ.

`NameSource.Knows` says which names a source has to have: those of the tables, and those of the
foreign keys in them, whichever column these copy.
-/

namespace FlatAggregate

variable {T C V : Type}

structure NameSource.Knows (names : NameSource T C) (specs : List (TableSpec T C)) : Prop where
  tableName : ∀ spec ∈ specs, ∃ name, names.tableName spec.table = .ok name
  foreignKeyName : ∀ spec ∈ specs, ∀ token ∈ specs.flatMap TableSpec.tokens,
    ∃ name, names.foreignKeyName spec.table token = .ok name

/-- The name under which a table stores a column of a plan, if it stores the column and the source
has a name for it. -/
def NameSource.stored? (names : NameSource T C) (plan : Plan T C) (column : ColumnId) :
    Option String :=
  match plan.columns[column]? with
  | some (.base token) => some (names.columnName token)
  | some (.foreignKey _ owner) => (names.storedName plan column owner).toOption
  | _ => none

theorem NameSource.stored?_of_storedColumn {names : NameSource T C} {plan : Plan T C}
    {column : ColumnId} {name : String}
    (h : Lowering.storedColumn names plan column = .ok (some name)) :
    names.stored? plan column = some name := by
  rw [Lowering.storedColumn] at h
  rw [stored?]
  cases hcolumn : plan.columns[column]? with
  | none => simp [hcolumn] at h
  | some definition =>
      rw [hcolumn] at h
      cases definition with
      | base token => exact Except.ok.inj h
      | foreignKey references owner =>
          dsimp only at h ⊢
          cases hname : names.storedName plan column owner with
          | error error => simp [hname] at h
          | ok stored =>
              rw [hname] at h
              exact Except.ok.inj h
      | _ => simp at h

namespace Plan

variable {plan : Plan T C}

def Sourced (plan : Plan T C) (tokens : List C) (column : ColumnId) : Prop :=
  ∃ token ∈ tokens, plan.sourceColumn column = some token

/-- Columns that a tree may receive: they stand in front of it and read tokens of the tables. -/
def Incoming (plan : Plan T C) (specs : List (TableSpec T C)) (mark : Mark)
    (columns : List ColumnId) : Prop :=
  ∀ column ∈ columns, column < mark.column ∧ plan.Sourced (specs.flatMap TableSpec.tokens) column

theorem incoming_nil (plan : Plan T C) (specs : List (TableSpec T C)) (mark : Mark) :
    plan.Incoming specs mark [] := by
  simp [Incoming]

section Sources

variable {tokens : List C} {column source : ColumnId}

theorem sourced_base {token : C} (h : plan.columns[column]? = some (.base token))
    (hmem : token ∈ tokens) : plan.Sourced tokens column := by
  refine ⟨token, hmem, ?_⟩
  rw [sourceColumn, h]

theorem Sourced.derived (hsource : plan.Sourced tokens source)
    (h : plan.columns[column]? = some (.derived source)) (hlt : source < column) :
    plan.Sourced tokens column := by
  obtain ⟨token, hmem, htoken⟩ := hsource
  refine ⟨token, hmem, ?_⟩
  rw [sourceColumn, h]
  simpa only [earlier, dif_pos hlt] using htoken

theorem Sourced.foreignKey {owner : SelectId} (hsource : plan.Sourced tokens source)
    (h : plan.columns[column]? = some (.foreignKey source owner)) (hlt : source < column) :
    plan.Sourced tokens column := by
  obtain ⟨token, hmem, htoken⟩ := hsource
  refine ⟨token, hmem, ?_⟩
  rw [sourceColumn, h]
  simpa only [earlier, dif_pos hlt] using htoken

end Sources

section Scans

variable {names : NameSource T C} {specs : List (TableSpec T C)} {spec : TableSpec T C}
  {incoming : List ColumnId} {mark : Mark} {next : Nat} {scan : TableScan T} {column : ColumnId}

/-- The columns of a table read tokens of its own or of the tables above. -/
theorem HasScan.sourced (h : plan.HasScan spec incoming mark next scan) (hspec : spec ∈ specs)
    (hincoming : plan.Incoming specs mark incoming) (hc : column ∈ scan.allColumns) :
    plan.Sourced (specs.flatMap TableSpec.tokens) column := by
  rcases h.stored hc with ⟨token, hmem, heq⟩ | ⟨references, hmem, -, heq⟩
  · exact sourced_base heq (List.mem_flatMap.mpr ⟨spec, hspec, hmem⟩)
  · obtain ⟨hlt, hsource⟩ := hincoming references hmem
    exact hsource.foreignKey heq (Nat.lt_of_lt_of_le hlt (h.mem_range hc).1)

variable (hknows : names.Knows specs) (hspec : spec ∈ specs)
  (hincoming : plan.Incoming specs mark incoming)

include hknows hspec hincoming

theorem HasScan.storedName (h : plan.HasScan spec incoming mark next scan)
    (hc : column ∈ scan.allColumns) :
    ∃ name, names.storedName plan column mark.select = .ok name := by
  obtain ⟨token, hmem, htoken⟩ := h.sourced hspec hincoming hc
  obtain ⟨name, hname⟩ := hknows.foreignKeyName spec hspec token hmem
  have htable : plan.tableOf mark.select = some spec.table := by
    rw [tableOf, h.select]
    exact congrArg some h.table
  refine ⟨name, ?_⟩
  rw [NameSource.storedName, htoken, htable]
  exact hname

theorem HasScan.named (h : plan.HasScan spec incoming mark next scan)
    (hc : column ∈ scan.allColumns) : plan.Named names column := by
  rcases h.stored hc with ⟨token, -, heq⟩ | ⟨references, -, -, heq⟩
  · exact .base heq
  · obtain ⟨name, hname⟩ := h.storedName hknows hspec hincoming hc
    exact .foreignKey heq hname

theorem HasScan.storedColumn (h : plan.HasScan spec incoming mark next scan)
    (hc : column ∈ scan.allColumns) :
    ∃ name, Lowering.storedColumn names plan column = .ok (some name) := by
  rcases h.stored hc with ⟨token, -, heq⟩ | ⟨references, -, -, heq⟩
  · exact ⟨names.columnName token, by rw [Lowering.storedColumn, heq]⟩
  · obtain ⟨name, hname⟩ := h.storedName hknows hspec hincoming hc
    refine ⟨name, ?_⟩
    rw [Lowering.storedColumn, heq]
    simp only [hname]
    rfl

end Scans

section Trees

variable {side : Side} {tree : JoinTree T C} {incoming : List ColumnId} {first last : Mark}
  {operand : Operand}

/-- The id columns of a select read tokens of its tables or of those above. -/
theorem Laid.incoming_id (h : plan.Laid side tree incoming first last operand)
    {specs : List (TableSpec T C)} (hspecs : tree.specs ⊆ specs)
    (hincoming : plan.Incoming specs first incoming) : plan.Incoming specs last operand.id := by
  suffices hsourced : ∀ c ∈ operand.id, plan.Sourced (specs.flatMap TableSpec.tokens) c from
    fun c hc => ⟨(h.within (by simp [Operand.handles, hc])).2, hsourced c hc⟩
  induction h with
  | @scan spec incoming first next scan hscan =>
      have hspec : spec ∈ specs := hspecs JoinTree.mem_specs_table
      exact fun c hc => hscan.sourced hspec hincoming (scan.idColumns_subset hc)
  | @view spec incoming first next scan hscan _ _ =>
      have hspec : spec ∈ specs := hspecs JoinTree.mem_specs_table
      exact fun c hc => hscan.sourced hspec hincoming (scan.idColumns_subset hc)
  | @join side left right incoming shown first middle last next parent child multiplicity owner join
      hparent _ hchild hjoin ihp _ =>
      intro c hc
      rw [JoinTree.specs, List.append_subset] at hspecs
      obtain ⟨source, hs, heq⟩ := hjoin.id.exists_source hc
      have hlt : source < last.column :=
        hparent.front hchild source (by simp [Operand.handles, hs])
      have hle := (hjoin.mem_range (List.mem_append_left _ (List.mem_append_right _ hc))).1
      exact (ihp hspecs.1 hincoming source hs).derived heq (Nat.lt_of_lt_of_le hlt hle)

theorem Laid.named (h : plan.Laid side tree incoming first last operand) {names : NameSource T C}
    {specs : List (TableSpec T C)} (hknows : names.Knows specs) (hspecs : tree.specs ⊆ specs)
    (hincoming : plan.Incoming specs first incoming) :
    ∀ c ∈ operand.columns, plan.Named names c := by
  induction h with
  | @scan spec incoming first next scan hscan =>
      have hspec : spec ∈ specs := hspecs JoinTree.mem_specs_table
      exact fun c hc => hscan.named hknows hspec hincoming hc
  | @view spec incoming first next scan hscan _ hrowNumber =>
      have hspec : spec ∈ specs := hspecs JoinTree.mem_specs_table
      intro c hc
      rcases List.mem_append.mp hc with hc | hc
      · exact hscan.named hknows hspec hincoming hc
      · rw [List.mem_singleton.mp hc]
        exact .rowNumber hrowNumber
  | @join side left right incoming shown first middle last next parent child multiplicity owner join
      hparent _ hchild hjoin ihp ihc =>
      rw [JoinTree.specs, List.append_subset] at hspecs
      have hincoming' := hparent.incoming_id hspecs.1 hincoming
      intro c hc
      rw [PlanJoin.operand, hjoin.columns] at hc
      rcases List.mem_append.mp hc with hc | hc
      · obtain ⟨source, hs, heq⟩ := hjoin.shows.exists_source hc
        have hlt : source < last.column := hparent.front hchild source (by
          rcases List.mem_append.mp hs with hs | hs <;> simp [Operand.handles, hs])
        refine .derived heq (Nat.lt_of_lt_of_le hlt (hjoin.mem_range (by simp [hc])).1) ?_
        rcases List.mem_append.mp hs with hs | hs
        · exact ihp hspecs.1 hincoming source hs
        · exact ihc hspecs.2 hincoming' source hs
      · rcases hjoin.computes hc with ⟨_, _, _, heq⟩ | ⟨_, -, heq⟩
        · exact .greatest heq
        · exact .maxOver heq

theorem Laid.canonical_mem (h : plan.Laid side tree incoming first last operand)
    {column : ColumnId} (hc : column ∈ operand.id ++ operand.foreignKeys ++ operand.columns) :
    plan.canonical column ∈ operand.columns.map plan.canonical := by
  suffices hsub : (operand.id ++ operand.foreignKeys).map plan.canonical ⊆
      operand.columns.map plan.canonical by
    rcases List.mem_append.mp hc with hc | hc
    · exact hsub (List.mem_map_of_mem hc)
    · exact List.mem_map_of_mem hc
  clear hc
  induction h with
  | @scan spec incoming first next scan hscan =>
      refine List.map_subset _ (List.append_subset.mpr ⟨scan.idColumns_subset, ?_⟩)
      exact scan.foreignKeys_subset
  | @view spec incoming first next scan hscan _ _ =>
      refine List.map_subset _ (List.subset_append_of_subset_left _ ?_)
      exact List.append_subset.mpr ⟨scan.idColumns_subset, scan.foreignKeys_subset⟩
  | @join side left right incoming shown first middle last next parent child multiplicity owner join
      hparent _ hchild hjoin ihp _ =>
      have hfront := hparent.front hchild
      rw [PlanJoin.operand, hjoin.columns, List.map_append, List.map_append,
        hjoin.map_canonical_id hfront, hjoin.map_canonical_shown hfront, List.append_subset]
      constructor
      · refine List.subset_append_of_subset_left _ ?_
        rw [List.map_append, List.append_subset] at ihp
        rw [List.map_append]
        exact List.subset_append_of_subset_left _ ihp.1
      · refine List.subset_append_of_subset_right _ (List.map_subset _ ?_)
        exact List.subset_append_of_subset_right _ fun _ h => h

theorem Laid.nodup_canonical (h : plan.Laid side tree incoming first last operand) :
    (operand.columns.map plan.canonical).Nodup := by
  induction h with
  | @scan spec incoming first next scan hscan =>
      rw [TableScan.operand, List.map_congr_left fun c hc => hscan.canonical_eq hc, List.map_id',
        hscan.allColumns_eq]
      exact List.nodup_range'
  | @view spec incoming first next scan hscan hview hrowNumber =>
      rw [TableScan.viewOperand, List.map_append,
        List.map_congr_left fun c hc => hscan.canonical_eq hc, List.map_id', List.map_singleton,
        canonical_of_ne hrowNumber (by simp)]
      refine List.nodup_append.mpr ⟨hscan.allColumns_eq ▸ List.nodup_range', by simp, ?_⟩
      intro c hc c' hc'
      rw [List.mem_singleton.mp hc']
      exact Nat.ne_of_lt (hscan.within hc).2
  | @join side left right incoming shown first middle last next parent child multiplicity owner join
      hparent _ hchild hjoin ihp ihc =>
      have hfront := hparent.front hchild
      rw [PlanJoin.operand, hjoin.columns, List.map_append, hjoin.map_canonical_shown hfront,
        List.map_congr_left fun c hc => hjoin.canonical_own hc, List.map_id', List.map_append,
        List.nodup_append, List.nodup_append]
      have hown : join.ownColumns.Nodup := by
        have hnodup := hjoin.nodup
        rw [List.append_assoc] at hnodup
        exact hnodup.of_append_left
      refine ⟨⟨ihp, ihc, ?_⟩, hown, ?_⟩
      · intro c hc c' hc'
        obtain ⟨column, hcolumn, rfl⟩ := List.mem_map.mp hc
        obtain ⟨column', hcolumn', rfl⟩ := List.mem_map.mp hc'
        have hleft : column < middle.column :=
          (hparent.within (by simp [Operand.handles, hcolumn])).2
        have hright : middle.column ≤ plan.canonical column' :=
          (hchild.within (by simp [Operand.handles, hcolumn'])).1
        exact Nat.ne_of_lt (Nat.lt_of_lt_of_le
          (Nat.lt_of_le_of_lt (plan.canonical_le column) hleft) hright)
      · intro c hc c' hc'
        have hle := (hjoin.mem_range (List.mem_append_left _ (List.mem_append_left _ hc'))).1
        have hlt : c < last.column := by
          rw [← List.map_append] at hc
          obtain ⟨column, hcolumn, rfl⟩ := List.mem_map.mp hc
          refine Nat.lt_of_le_of_lt (plan.canonical_le column) (hfront column ?_)
          rcases List.mem_append.mp hcolumn with h | h <;> simp [Operand.handles, h]
        exact Nat.ne_of_lt (Nat.lt_of_lt_of_le hlt hle)

/-- The sides of a join have different own keys: the child side is no bare table. -/
theorem Laid.ownKey_select_ne {left right : JoinTree T C} {middle : Mark} {parent child : Operand}
    (hparent : plan.Laid .parent left incoming first middle parent)
    (hchild : plan.Laid .child right parent.id middle last child) :
    plan.ownKey (.select parent.select) ≠ plan.ownKey (.select child.select) := by
  have hlt : parent.select < child.select := Nat.lt_of_lt_of_le hparent.room.2.1 hchild.room.1
  have hkey : plan.ownKey (.select child.select) = .select child.select := by
    cases hchild with
    | view _ hview _ => simp [ownKey, TableScan.viewOperand, hview]
    | join _ _ _ hjoin => simp [ownKey, PlanJoin.operand, hjoin.select]
  rw [hkey, ownKey]
  split
  · simp
  · exact fun heq => Nat.ne_of_lt hlt (AliasKey.select.inj heq)

end Trees

/-- If tokens are distinct, columns with the same own key show the same column. -/
theorem TokensDistinct.canonical_eq (h : plan.TokensDistinct) {column column' : ColumnId}
    (heq : plan.ownKey (.column column) = plan.ownKey (.column column')) :
    plan.canonical column = plan.canonical column' := by
  rw [ownKey, ownKey] at heq
  split at heq <;> split at heq
  · obtain rfl := AliasKey.token.inj heq
    exact h _ _ _ ‹_› ‹_›
  · cases heq
  · cases heq
  · exact AliasKey.column.inj heq

end Plan

end FlatAggregate
