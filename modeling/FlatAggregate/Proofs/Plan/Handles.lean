import FlatAggregate.Proofs.Plan.Exposure

/-!
# The handles of a built plan

The two lists of a plan refer to each other, and to themselves, by handles. In the plan of an
assembled draft every entry refers to entries in front of it (`Plan.Ordered`), also the foreign key
of a table, although the scan that owns it is added after it.

Both facts come from the place of a column: it belongs to the outermost select of some part of the
tree that is laid out (`Laid.exists_laid_of_column`), and what that part receives stands in front of
it.

`PlanColumn.sources` and `PlanSelect.handles` list what an entry refers to.
-/

namespace FlatAggregate

variable {T C : Type}

def PlanColumn.sources : PlanColumn C → List ColumnId
  | base _ | literal _ => []
  | derived source => [source]
  | foreignKey references _ => [references]
  | rowNumber partitionBy => partitionBy
  | greatest left right _ => [left, right]
  | maxOver column partitionBy => column :: partitionBy

def PlanSelect.handles : PlanSelect T → List ColumnId
  | scan found => found.allColumns ++ [found.rowNumber]
  | view _ rowNumber => [rowNumber]
  | join found =>
    found.conditions.flatMap (fun condition => [condition.left, condition.right]) ++ found.id ++
      found.identity ++ [found.rowNumber] ++ found.foreignKeys ++ found.columns

namespace Plan

/-- Every entry of a plan refers to entries in front of it, and the selects are one tree with the
root on top. -/
structure Ordered (plan : Plan T C) : Prop where
  source_lt : ∀ (column : ColumnId) (definition : PlanColumn C),
    plan.columns[column]? = some definition → ∀ source ∈ definition.sources, source < column
  operand_lt : ∀ select, ∀ operand ∈ plan.operandsOf select, operand < select
  root_eq : plan.root + 1 = plan.selects.size
  /-- The root and the operands of all selects are the selects of the plan, once each. -/
  perm_operands : (plan.root :: (List.range plan.selects.size).flatMap plan.operandsOf).Perm
    (List.range plan.selects.size)
  view : ∀ (select table : SelectId) (rowNumber : ColumnId),
    plan.selects[select]? = some (.view table rowNumber) → ∃ scan, plan.scanAt table = some scan
  parent : ∀ (select : SelectId) (join : PlanJoin), plan.selects[select]? = some (.join join) →
    (∃ scan, plan.scanAt join.parent = some scan) ∨
      ∃ below : PlanJoin, plan.selects[join.parent]? = some (.join below)
  child : ∀ (select : SelectId) (join : PlanJoin), plan.selects[select]? = some (.join join) →
    (∃ table rowNumber, plan.selects[join.child]? = some (.view table rowNumber)) ∨
      ∃ below : PlanJoin, plan.selects[join.child]? = some (.join below)
  /-- A foreign key belongs to the one scan that stores it. -/
  owner : ∀ (column references : ColumnId) (owner : SelectId),
    plan.columns[column]? = some (.foreignKey references owner) →
      (∃ scan, plan.scanAt owner = some scan ∧ column ∈ scan.foreignKeys) ∧
      ∀ select scan, plan.scanAt select = some scan → column ∈ scan.foreignKeys → select = owner
  handle_lt : ∀ (select : SelectId) (definition : PlanSelect T),
    plan.selects[select]? = some definition →
      ∀ handle ∈ definition.handles, handle < plan.columns.size

variable {plan : Plan T C}

section Definitions

variable {spec : TableSpec T C} {incoming shown : List ColumnId} {mark : Mark} {next : Nat}
  {scan : TableScan T} {parent child : Operand} {multiplicity : Multiplicity} {join : PlanJoin}
  {column : ColumnId} {definition : PlanColumn C}

theorem HasScan.source_lt (h : plan.HasScan spec incoming mark next scan)
    (hincoming : ∀ c ∈ incoming, c < mark.column)
    (hc : column ∈ scan.allColumns ++ [scan.rowNumber])
    (hd : plan.columns[column]? = some definition) :
    ∀ source ∈ definition.sources, source < column := by
  rcases List.mem_append.mp hc with hc | hc
  · rcases h.stored hc with ⟨token, -, heq⟩ | ⟨references, hr, -, heq⟩
    · obtain rfl := Option.some.inj (heq.symm.trans hd)
      simp [PlanColumn.sources]
    · obtain rfl := Option.some.inj (heq.symm.trans hd)
      intro source hs
      rw [List.mem_singleton.mp hs]
      exact Nat.lt_of_lt_of_le (hincoming references hr) (h.mem_range hc).1
  · rw [List.mem_singleton.mp hc, h.rowNumber] at hd
    obtain rfl := Option.some.inj hd
    simp [PlanColumn.sources]

/-- A column of a join refers to columns of the operands, a foreign key also to the identity. -/
theorem HasJoin.source_lt (h : plan.HasJoin parent child multiplicity mark next join shown)
    (hfront : ∀ c ∈ parent.handles ++ child.handles, c < mark.column)
    (hc : column ∈ join.ownColumns ++ join.id ++ shown)
    (hd : plan.columns[column]? = some definition) :
    ∀ source ∈ definition.sources, source < column := by
  have hoperands : ∀ c ∈ parent.handles ++ child.handles, c < column := fun c hmem =>
    Nat.lt_of_lt_of_le (hfront c hmem) (h.mem_range hc).1
  simp only [PlanJoin.ownColumns, List.mem_append, List.mem_singleton, or_assoc] at hc
  rcases hc with hc | rfl | hc | hc | hc
  · obtain ⟨pair, hpair, heq⟩ := h.identity.exists_source hc
    obtain ⟨hl, hr⟩ := List.of_mem_zip hpair
    obtain rfl := Option.some.inj (heq.symm.trans hd)
    intro source hs
    rcases List.mem_pair.mp hs with rfl | rfl
    · exact hoperands _ (by simp [Operand.handles, hl])
    · exact hoperands _ (by simp [Operand.handles, hr])
  · obtain rfl := Option.some.inj (h.rowNumber.symm.trans hd)
    intro source hs
    rcases List.mem_pair.mp hs with rfl | rfl <;> exact hoperands _ (by simp [Operand.handles])
  · obtain ⟨spread, hspread, heq⟩ := h.maxOver_of_mem hc
    obtain rfl := Option.some.inj (heq.symm.trans hd)
    intro source hs
    rcases List.mem_cons.mp hs with rfl | hkey
    · exact hoperands _ (by simp [Operand.handles, hspread])
    · exact h.identity_lt hkey hc
  · obtain ⟨id, hid, heq⟩ := h.id.exists_source hc
    obtain rfl := Option.some.inj (heq.symm.trans hd)
    intro source hs
    rw [List.mem_singleton.mp hs]
    exact hoperands id (by simp [Operand.handles, hid])
  · obtain ⟨below, hbelow, heq⟩ := h.shows.exists_source hc
    obtain rfl := Option.some.inj (heq.symm.trans hd)
    intro source hs
    rw [List.mem_singleton.mp hs]
    rcases List.mem_append.mp hbelow with hbelow | hbelow <;>
      exact hoperands below (by simp [Operand.handles, hbelow])

theorem HasJoin.compared_mem (h : plan.HasJoin parent child multiplicity mark next join shown)
    {condition : JoinCondition} (hc : condition ∈ join.conditions) :
    condition.left ∈ parent.handles ∧ condition.right ∈ child.handles := by
  rw [h.conditions] at hc
  rcases List.mem_append.mp hc with hc | hc
  · obtain ⟨pair, hpair, rfl⟩ := List.mem_map.mp hc
    obtain ⟨hl, hr⟩ := List.of_mem_zip hpair
    exact ⟨by simp [Operand.handles, hl], by simp [Operand.handles, hr]⟩
  · rw [List.mem_singleton.mp hc]
    exact ⟨by simp [Operand.handles], by simp [Operand.handles]⟩

theorem HasJoin.next_le_size (h : plan.HasJoin parent child multiplicity mark next join shown) :
    next ≤ plan.columns.size := by
  have hdefined : ∀ c ∈ join.ownColumns ++ join.id ++ shown, c < plan.columns.size := by
    intro c hc
    simp only [List.mem_append] at hc
    rcases hc with (hc | hc) | hc
    · rcases h.computes hc with ⟨_, _, _, heq⟩ | ⟨_, -, heq⟩ <;>
        exact (Array.getElem?_eq_some_iff.mp heq).1
    · obtain ⟨_, -, heq⟩ := h.id.exists_source hc
      exact (Array.getElem?_eq_some_iff.mp heq).1
    · obtain ⟨_, -, heq⟩ := h.shows.exists_source hc
      exact (Array.getElem?_eq_some_iff.mp heq).1
  have hpos : 0 < (join.ownColumns ++ join.id ++ shown).length :=
    List.length_pos_of_mem (by simp [PlanJoin.ownColumns] :
      join.rowNumber ∈ join.ownColumns ++ join.id ++ shown)
  have hnext := h.next_eq
  have hlast : next - 1 < plan.columns.size := by
    apply hdefined
    rw [h.range, List.mem_range'_1]
    omega
  omega

end Definitions

section Trees

variable {side : Side} {tree : JoinTree T C} {incoming : List ColumnId} {first last : Mark}
  {operand : Operand} {specs : List (TableSpec T C)} {column : ColumnId}
  {definition : PlanColumn C}

theorem Laid.select_succ (h : plan.Laid side tree incoming first last operand) :
    operand.select + 1 = last.select := by
  cases h <;> rfl

/-- A column between the marks of a tree belongs to the outermost select of a part of it, and this
part receives columns that stand in front. -/
theorem Laid.exists_laid_of_column (h : plan.Laid side tree incoming first last operand)
    (hspecs : tree.specs ⊆ specs) (hincoming : plan.Incoming specs first incoming)
    (hfirst : first.column ≤ column) (hlast : column < last.column) :
    ∃ side' tree' incoming' first' last' operand',
      plan.Laid side' tree' incoming' first' last' operand' ∧ tree'.specs ⊆ specs ∧
      plan.Incoming specs first' incoming' ∧ column ∈ plan.ownedBy operand'.select := by
  induction h with
  | @scan spec incoming first next scan hscan =>
      refine ⟨_, _, _, _, _, _, .scan hscan, hspecs, hincoming, ?_⟩
      simp only [TableScan.operand, ownedBy, hscan.select]
      exact hscan.mem_owned_iff.mpr ⟨hfirst, hlast⟩
  | @view spec incoming first next scan hscan hview hrowNumber =>
      rcases Nat.lt_succ_iff_lt_or_eq.mp hlast with hlt | rfl
      · refine ⟨_, _, _, _, _, _, .scan hscan, hspecs, hincoming, ?_⟩
        simp only [TableScan.operand, ownedBy, hscan.select]
        exact hscan.mem_owned_iff.mpr ⟨hfirst, hlt⟩
      · refine ⟨_, _, _, _, _, _, .view hscan hview hrowNumber, hspecs, hincoming, ?_⟩
        simp [TableScan.viewOperand, ownedBy, hview]
  | @join side left right incoming shown first middle last next parent child multiplicity owner join
      hparent hid hchild hjoin ihp ihc =>
      have hsides := hspecs
      rw [JoinTree.specs, List.append_subset] at hsides
      rcases Nat.lt_or_ge column middle.column with hlt | hmiddle
      · exact ihp hsides.1 hincoming hfirst hlt
      rcases Nat.lt_or_ge column last.column with hlt | hge
      · exact ihc hsides.2 (hparent.incoming_id hsides.1 hincoming) hmiddle hlt
      · refine ⟨side, _, _, _, _, _, .join hparent hid hchild hjoin, hspecs, hincoming, ?_⟩
        simp only [PlanJoin.operand, ownedBy, hjoin.select]
        exact hjoin.mem_owned_iff.mpr ⟨hge, hlast⟩

/-- The columns of the outermost select of a tree refer to columns in front of them. -/
theorem Laid.source_lt (h : plan.Laid side tree incoming first last operand)
    (hincoming : ∀ c ∈ incoming, c < first.column) (hc : column ∈ plan.ownedBy operand.select)
    (hd : plan.columns[column]? = some definition) :
    ∀ source ∈ definition.sources, source < column := by
  cases h with
  | scan hscan =>
      simp only [TableScan.operand, ownedBy, hscan.select] at hc
      exact hscan.source_lt hincoming hc hd
  | @view spec incoming first next scan hscan hview hrowNumber =>
      simp only [TableScan.viewOperand, ownedBy, hview, List.mem_singleton] at hc
      rw [hc, hrowNumber] at hd
      obtain rfl := Option.some.inj hd
      intro source hs
      rw [hc]
      exact (hscan.within (scan.foreignKeys_subset hs)).2
  | join hparent hid hchild hjoin =>
      simp only [PlanJoin.operand, ownedBy, hjoin.select, hjoin.mem_owned] at hc
      exact hjoin.source_lt (hparent.front hchild) hc hd

/-- Only scans own foreign keys: the owner of one stores it, and it reads a token in the end. -/
theorem Laid.owner_of_foreignKey (h : plan.Laid side tree incoming first last operand)
    (hspecs : tree.specs ⊆ specs) (hincoming : plan.Incoming specs first incoming)
    {references : ColumnId} {owner : SelectId} (hc : column ∈ plan.ownedBy operand.select)
    (hd : plan.columns[column]? = some (.foreignKey references owner)) :
    (∃ scan, plan.scanAt owner = some scan ∧ column ∈ scan.foreignKeys) ∧
      plan.Sourced (specs.flatMap TableSpec.tokens) column := by
  cases h with
  | @scan spec incoming first next scan hscan =>
      simp only [TableScan.operand, ownedBy, hscan.select, List.mem_append,
        List.mem_singleton] at hc
      rcases hc with hc | rfl
      · have hsourced := hscan.sourced (hspecs JoinTree.mem_specs_table) hincoming hc
        rcases hscan.stored hc with ⟨token, -, heq⟩ | ⟨source, -, hmem, heq⟩
        · simp [heq] at hd
        · obtain ⟨-, rfl⟩ : source = references ∧ first.select = owner := by
            simpa using heq.symm.trans hd
          exact ⟨⟨scan, hscan.scanAt, hmem⟩, hsourced⟩
      · simp [hscan.rowNumber] at hd
  | view hscan hview hrowNumber =>
      simp only [TableScan.viewOperand, ownedBy, hview, List.mem_singleton] at hc
      simp [hc, hrowNumber] at hd
  | join hparent hid hchild hjoin =>
      simp only [PlanJoin.operand, ownedBy, hjoin.select, hjoin.mem_owned, List.mem_append] at hc
      rcases hc with (hc | hc) | hc
      · rcases hjoin.computes hc with ⟨_, _, _, heq⟩ | ⟨_, -, heq⟩ <;> simp [heq] at hd
      · obtain ⟨source, -, heq⟩ := hjoin.id.exists_source hc
        simp [heq] at hd
      · obtain ⟨source, -, heq⟩ := hjoin.shows.exists_source hc
        simp [heq] at hd

/-- Only tables, views and joins are outermost selects, views and joins on a child side. -/
theorem Laid.isScan_or_isJoin (h : plan.Laid .parent tree incoming first last operand) :
    (∃ scan, plan.scanAt operand.select = some scan) ∨
      ∃ join : PlanJoin, plan.selects[operand.select]? = some (.join join) := by
  cases h with
  | scan hscan => exact .inl ⟨_, hscan.scanAt⟩
  | join _ _ _ hjoin => exact .inr ⟨_, hjoin.select⟩

theorem Laid.isView_or_isJoin (h : plan.Laid .child tree incoming first last operand) :
    (∃ table rowNumber, plan.selects[operand.select]? = some (.view table rowNumber)) ∨
      ∃ join : PlanJoin, plan.selects[operand.select]? = some (.join join) := by
  cases h with
  | view _ hview _ => exact .inl ⟨_, _, hview⟩
  | join _ _ _ hjoin => exact .inr ⟨_, hjoin.select⟩

theorem Laid.exists_scanAt_of_view (h : plan.Laid side tree incoming first last operand)
    {table : SelectId} {rowNumber : ColumnId}
    (hview : plan.selects[operand.select]? = some (.view table rowNumber)) :
    ∃ scan, plan.scanAt table = some scan := by
  cases h with
  | scan hscan => simp [TableScan.operand, hscan.select] at hview
  | @view spec incoming first next scan hscan hlaid hrowNumber =>
      obtain ⟨rfl, -⟩ : first.select = table ∧ next = rowNumber := by
        simpa using hlaid.symm.trans hview
      exact ⟨scan, hscan.scanAt⟩
  | join _ _ _ hjoin => simp [PlanJoin.operand, hjoin.select] at hview

theorem Laid.operand_lt (h : plan.Laid side tree incoming first last operand) :
    ∀ below ∈ plan.operandsOf operand.select, below < operand.select := by
  cases h with
  | scan hscan => simp [TableScan.operand, operandsOf, hscan.select]
  | view _ hview _ => simp [TableScan.viewOperand, operandsOf, hview]
  | join hparent _ hchild hjoin =>
      simp [PlanJoin.operand, operandsOf, hjoin.select, hjoin.parent_eq, hjoin.child_eq,
        hparent.sides_lt hchild]

/-- The outermost select of a tree and the operands of all its selects are its selects, once
each. -/
theorem Laid.perm_operands (h : plan.Laid side tree incoming first last operand) :
    (operand.select :: (List.range' first.select (last.select - first.select)).flatMap
      plan.operandsOf).Perm (List.range' first.select (last.select - first.select)) := by
  induction h with
  | scan hscan => simp [TableScan.operand, operandsOf, hscan.select]
  | view hscan hview _ =>
      simpa [TableScan.viewOperand, operandsOf, hscan.select, hview, List.range'_succ] using
        List.Perm.swap _ _ _
  | @join side left right incoming shown first middle last next parent child multiplicity owner join
      hparent _ hchild hjoin ihp ihc =>
      have hoperands : plan.operandsOf last.select = [parent.select, child.select] := by
        simp [operandsOf, hjoin.select, hjoin.parent_eq, hjoin.child_eq]
      dsimp only
      rw [hparent.range'_selects hchild, List.flatMap_append, List.flatMap_append,
        List.flatMap_singleton, hoperands]
      have hsides := (List.perm_middle.symm.cons parent.select).trans (ihp.append ihc)
      exact ((List.perm_append_comm.trans hsides).cons last.select).trans
        (List.perm_append_singleton _ _).symm

theorem Laid.last_le_size (h : plan.Laid side tree incoming first last operand) :
    last.column ≤ plan.columns.size := by
  cases h with
  | scan hscan =>
      have hlt := (Array.getElem?_eq_some_iff.mp hscan.rowNumber).1
      rwa [hscan.rowNumber_eq, ← Nat.succ_le_iff, Nat.succ_eq_add_one, ← hscan.next_eq] at hlt
  | view _ _ hrowNumber => exact (Array.getElem?_eq_some_iff.mp hrowNumber).1
  | join _ _ _ hjoin => exact hjoin.next_le_size

theorem Laid.offered_lt_size (h : plan.Laid side tree incoming first last operand) :
    ∀ c ∈ operand.handles, c < plan.columns.size := fun _ hc =>
  Nat.lt_of_lt_of_le (h.within hc).2 h.last_le_size

theorem Laid.handle_lt_size (h : plan.Laid side tree incoming first last operand)
    {definition : PlanSelect T} (hd : plan.selects[operand.select]? = some definition) :
    ∀ handle ∈ definition.handles, handle < plan.columns.size := by
  have hoffered := h.offered_lt_size
  intro handle hc
  cases h with
  | scan hscan =>
      obtain rfl := Option.some.inj (hscan.select.symm.trans hd)
      apply hoffered
      rcases List.mem_append.mp hc with hc | hc <;> simp [Operand.handles, TableScan.operand, hc]
  | view _ hview _ =>
      obtain rfl := Option.some.inj (hview.symm.trans hd)
      apply hoffered
      rw [List.mem_singleton.mp hc]
      simp [Operand.handles, TableScan.viewOperand]
  | @join side left right incoming shown first middle last next parent child multiplicity owner join
      hparent hid hchild hjoin =>
      obtain rfl := Option.some.inj (hjoin.select.symm.trans hd)
      simp only [PlanSelect.handles, List.mem_append, List.mem_singleton, or_assoc] at hc
      rcases hc with hc | hc
      · obtain ⟨condition, hcondition, hc⟩ := List.mem_flatMap.mp hc
        obtain ⟨hleft, hright⟩ := hjoin.compared_mem hcondition
        rcases List.mem_pair.mp hc with rfl | rfl
        · exact hparent.offered_lt_size _ hleft
        · exact hchild.offered_lt_size _ hright
      · apply hoffered
        simp only [Operand.handles, PlanJoin.operand, hjoin.columns, PlanJoin.ownColumns,
          List.mem_append, List.mem_singleton] at hc ⊢
        tauto

end Trees

section Whole

variable {whole : JoinTree T C} {top : Operand}

/-- In a plan made from a tree every foreign key reads a column of some table. -/
theorem Laid.exists_sourceColumn
    (hplan : plan.Laid .parent whole [] ⟨0, 0⟩ plan.parts.mark top) {column references : ColumnId}
    {owner : SelectId} (hd : plan.columns[column]? = some (.foreignKey references owner)) :
    ∃ token, plan.sourceColumn column = some token := by
  obtain ⟨_, _, _, _, _, _, hlaid, hspecs, hincoming, hc⟩ :=
    hplan.exists_laid_of_column (List.Subset.refl _) (plan.incoming_nil whole.specs ⟨0, 0⟩)
      (Nat.zero_le _) (Array.getElem?_eq_some_iff.mp hd).1
  obtain ⟨-, token, -, htoken⟩ := hlaid.owner_of_foreignKey hspecs hincoming hc hd
  exact ⟨token, htoken⟩

theorem Laid.ordered (hplan : plan.Laid .parent whole [] ⟨0, 0⟩ plan.parts.mark top)
    (hroot : plan.root = top.select) : plan.Ordered := by
  have hcolumn : ∀ {column : ColumnId} {definition : PlanColumn C},
      plan.columns[column]? = some definition → _ := fun hd =>
    hplan.exists_laid_of_column (List.Subset.refl _) (plan.incoming_nil whole.specs ⟨0, 0⟩)
      (Nat.zero_le _) (Array.getElem?_eq_some_iff.mp hd).1
  have hselect : ∀ {select : SelectId} {definition : PlanSelect T},
      plan.selects[select]? = some definition → _ := fun hd =>
    hplan.exists_laid (Nat.zero_le _) (Array.getElem?_eq_some_iff.mp hd).1
  constructor
  case source_lt =>
    intro column definition hd
    obtain ⟨_, _, _, _, _, _, hlaid, -, hincoming, hc⟩ := hcolumn hd
    exact hlaid.source_lt (fun c hc => (hincoming c hc).1) hc hd
  case operand_lt =>
    intro select below hbelow
    cases hd : plan.selects[select]? with
    | none => simp [operandsOf, hd] at hbelow
    | some definition =>
        obtain ⟨_, _, _, _, _, _, hlaid, rfl⟩ := hselect hd
        exact hlaid.operand_lt below hbelow
  case root_eq => exact hroot ▸ hplan.select_succ
  case perm_operands =>
    have hperm := hplan.perm_operands
    rw [← hroot, Nat.sub_zero, ← List.range_eq_range'] at hperm
    exact hperm
  case view =>
    intro select table rowNumber hview
    obtain ⟨_, _, _, _, _, _, hlaid, rfl⟩ := hselect hview
    exact hlaid.exists_scanAt_of_view hview
  case parent =>
    intro select join hjoin
    obtain ⟨_, _, _, _, _, _, _, _, _, _, _, _, -, hparent, -, -, hlaid, -⟩ :=
      hplan.exists_hasJoin_of_select hjoin
    rw [hlaid.parent_eq]
    exact hparent.isScan_or_isJoin
  case child =>
    intro select join hjoin
    obtain ⟨_, _, _, _, _, _, _, _, _, _, _, _, -, -, -, hchild, hlaid, -⟩ :=
      hplan.exists_hasJoin_of_select hjoin
    rw [hlaid.child_eq]
    exact hchild.isView_or_isJoin
  case owner =>
    intro column references owner hd
    obtain ⟨_, _, _, _, _, _, hlaid, hspecs, hincoming, hc⟩ := hcolumn hd
    refine ⟨(hlaid.owner_of_foreignKey hspecs hincoming hc hd).1, fun select scan hscan hmem => ?_⟩
    obtain ⟨spec, -, incoming, mark, next, rfl, hhas, -⟩ := hplan.exists_hasScan_of_scanAt hscan
    obtain ⟨source, -, heq⟩ := hhas.foreignKeys.exists_source hmem
    exact (PlanColumn.foreignKey.inj (Option.some.inj (heq.symm.trans hd))).2
  case handle_lt =>
    intro select definition hd
    obtain ⟨_, _, _, _, _, _, hlaid, rfl⟩ := hselect hd
    exact hlaid.handle_lt_size hd

end Whole

end Plan

end FlatAggregate
