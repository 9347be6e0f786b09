import FlatAggregate.Proofs.Plan.Alignment

/-!
# The stored columns that a join compares

Every table but the root is the left-most one on the child side of a join, and the ids of that join
are compared, one by one, with the foreign keys that the table stores. So two conditions of a join
compare different ids with one stored column exactly if the table stores two foreign keys under one
name, whatever the names are (`Laid.separates_iff`).
-/

namespace FlatAggregate

variable {T C B : Type}

section Related

variable {α β : Type} {R : α → β → Prop} {items : List α} {results : List β}

theorem exists_result_of_forall₂ (h : List.Forall₂ R items results) {item : α}
    (hitem : item ∈ items) : ∃ result ∈ results, R item result := by
  induction h with
  | nil => cases hitem
  | cons hhead _ ih =>
      rcases List.mem_cons.mp hitem with rfl | hitem
      · exact ⟨_, List.mem_cons_self, hhead⟩
      · obtain ⟨result, hresult, hrelated⟩ := ih hitem
        exact ⟨result, List.mem_cons_of_mem _ hresult, hrelated⟩

/-- Where results differ, and each item has one, two items with the same result are the same. -/
theorem eq_of_forall₂_nodup (h : List.Forall₂ R items results) (hn : results.Nodup)
    (hunique : Relator.RightUnique R) {item item' : α} {result : β} (hitem : item ∈ items)
    (hitem' : item' ∈ items) (hresult : R item result) (hresult' : R item' result) :
    item = item' := by
  induction h with
  | nil => cases hitem
  | @cons head first items results hhead hrest ih =>
      obtain ⟨hfirst, hn⟩ := List.nodup_cons.mp hn
      -- the first result is not that of another item
      have hapart : ∀ {other : α}, other ∈ items → ¬ R other first := by
        intro other hother hrelated
        obtain ⟨own, hown, hotherOwn⟩ := exists_result_of_forall₂ hrest hother
        exact hfirst (hunique hotherOwn hrelated ▸ hown)
      rcases List.mem_cons.mp hitem with rfl | hmem
      · rcases List.mem_cons.mp hitem' with rfl | hmem'
        · rfl
        · exact absurd (hunique hresult hhead ▸ hresult') (hapart hmem')
      · rcases List.mem_cons.mp hitem' with rfl | hmem'
        · exact absurd (hunique hresult' hhead ▸ hresult) (hapart hmem)
        · exact ih hn hmem hmem'

end Related

namespace Plan

/-- A condition compares with a foreign key of a scan, spread over more rows perhaps. -/
def Compares (plan : Plan T C) (scan : TableScan T) (condition : JoinCondition)
    (stored : ColumnId) : Prop :=
  stored ∈ scan.foreignKeys ∧ Relation.ReflTransGen plan.Spreads condition.right stored

/-- No two conditions of one join compare different columns with foreign keys of a scan that have
the same name. -/
def Separates (plan : Plan T C) (scan : TableScan T) (name : ColumnId → B) : Prop :=
  ∀ (select : SelectId) (join : PlanJoin), plan.selects[select]? = some (.join join) →
    ∀ condition ∈ join.conditions, ∀ condition' ∈ join.conditions, ∀ stored stored',
      plan.Compares scan condition stored → plan.Compares scan condition' stored' →
        name stored = name stored' → condition.left = condition'.left

variable {plan : Plan T C} {scan : TableScan T} {spec : TableSpec T C} {incoming : List ColumnId}
  {mark : Mark} {next : Nat}

theorem rightUnique_spreads (plan : Plan T C) : Relator.RightUnique plan.Spreads := by
  rintro column source source' ⟨partitionBy, h⟩ ⟨partitionBy', h'⟩
  exact (PlanColumn.maxOver.inj (Option.some.inj (h.symm.trans h'))).1

theorem HasScan.eq_of_spreads (h : plan.HasScan spec incoming mark next scan)
    {stored column : ColumnId} (hstored : stored ∈ scan.foreignKeys)
    (hspreads : Relation.ReflTransGen plan.Spreads stored column) : column = stored := by
  obtain ⟨references, -, heq⟩ := h.foreignKeys.exists_source hstored
  rcases Relation.ReflTransGen.cases_head hspreads with hsame | ⟨source, ⟨_, hsource⟩, -⟩
  · exact hsame.symm
  · cases heq.symm.trans hsource

theorem HasScan.spreads_unique {spec' : TableSpec T C} {incoming' : List ColumnId} {mark' : Mark}
    {next' : Nat} {scan' : TableScan T} (h : plan.HasScan spec incoming mark next scan)
    (h' : plan.HasScan spec' incoming' mark' next' scan') {column stored stored' : ColumnId}
    (hmem : stored ∈ scan.foreignKeys) (hmem' : stored' ∈ scan'.foreignKeys)
    (hspreads : Relation.ReflTransGen plan.Spreads column stored)
    (hspreads' : Relation.ReflTransGen plan.Spreads column stored') : stored = stored' := by
  rcases Relation.ReflTransGen.total_of_right_unique plan.rightUnique_spreads hspreads hspreads'
    with hon | hon
  · exact (h.eq_of_spreads hmem hon).symm
  · exact h'.eq_of_spreads hmem' hon

theorem HasScan.nodup_allColumns (h : plan.HasScan spec incoming mark next scan) :
    scan.allColumns.Nodup := by
  rw [h.allColumns_eq]
  exact List.nodup_range'

theorem HasScan.nodup_foreignKeys (h : plan.HasScan spec incoming mark next scan) :
    scan.foreignKeys.Nodup := by
  refine h.nodup_allColumns.sublist ?_
  rw [TableScan.allColumns, List.append_assoc]
  exact (List.sublist_append_left _ _).trans (List.sublist_append_right _ _)

theorem HasScan.nodup_idColumns (h : plan.HasScan spec incoming mark next scan) :
    scan.idColumns.Nodup := by
  rw [TableScan.idColumns]
  cases hid : scan.id with
  | some id => exact List.nodup_singleton id
  | none =>
      refine h.nodup_allColumns.sublist ?_
      rw [TableScan.allColumns, List.append_assoc]
      exact List.sublist_append_right _ _

section Trees

variable {side : Side} {tree : JoinTree T C} {first last : Mark} {operand : Operand}

theorem Laid.nodup_id (h : plan.Laid side tree incoming first last operand) : operand.id.Nodup := by
  cases h with
  | scan hscan => exact hscan.nodup_idColumns
  | view hscan _ _ => exact hscan.nodup_idColumns
  | join _ _ _ hjoin => exact hjoin.nodup.of_append_left.of_append_right

theorem Laid.not_spreads_rowNumber (h : plan.Laid side tree incoming first last operand)
    {spec' : TableSpec T C} {incoming' : List ColumnId}
    (hscan : plan.HasScan spec' incoming' mark next scan) {stored : ColumnId}
    (hstored : stored ∈ scan.foreignKeys) :
    ¬ Relation.ReflTransGen plan.Spreads operand.rowNumber stored := by
  obtain ⟨references, -, hforeign⟩ := hscan.foreignKeys.exists_source hstored
  obtain ⟨column, hcolumn, hforeignKey, hmaxOver⟩ : ∃ column,
      plan.columns[operand.rowNumber]? = some column ∧
      (∀ references owner, column ≠ .foreignKey references owner) ∧
      ∀ source partitionBy, column ≠ .maxOver source partitionBy := by
    cases h with
    | scan hscan => exact ⟨_, hscan.rowNumber, nofun, nofun⟩
    | view _ _ hrowNumber => exact ⟨_, hrowNumber, nofun, nofun⟩
    | join _ _ _ hjoin => exact ⟨_, hjoin.rowNumber, nofun, nofun⟩
  intro hspreads
  rcases Relation.ReflTransGen.cases_head hspreads with hsame | ⟨source, ⟨partitionBy, hsource⟩, -⟩
  · rw [hsame, hforeign] at hcolumn
    exact hforeignKey _ _ (Option.some.inj hcolumn).symm
  · rw [hsource] at hcolumn
    exact hmaxOver _ _ (Option.some.inj hcolumn).symm

/-- A scan between the marks of a tree stands left-most in it, or on the child side of a join. -/
theorem Laid.exists_join_of_scanAt (h : plan.Laid side tree incoming first last operand)
    {select : SelectId} (hfirst : first.select ≤ select) (hlast : select < last.select)
    (hscan : plan.scanAt select = some scan) :
    plan.leftmost operand.select = some scan ∨ ∃ (outer : SelectId) (join : PlanJoin),
      plan.selects[outer]? = some (.join join) ∧ plan.leftmost join.child = some scan := by
  induction h with
  | @scan spec incoming first next own hown =>
      obtain rfl : select = first.select := Nat.le_antisymm (Nat.le_of_lt_succ hlast) hfirst
      exact .inl ((leftmost_scan hown.select).trans (hown.scanAt.symm.trans hscan))
  | @view spec incoming first next own hown hview hrowNumber =>
      refine .inl ?_
      rcases Nat.eq_or_lt_of_le hfirst with rfl | hlt
      · rw [Plan.leftmost, TableScan.viewOperand, hview]
        exact hscan
      · obtain rfl : select = first.select + 1 := Nat.le_antisymm (Nat.le_of_lt_succ hlast) hlt
        simp [scanAt, hview] at hscan
  | @join side left right incoming shown first middle last next parent child multiplicity owner join
      hparent _ hchild hjoin ihp ihc =>
      rcases side_of_scanAt hjoin.select hlast hscan middle.select with hlt | ⟨hge, hlt⟩
      · refine (ihp hfirst hlt).imp_left fun hleftmost => ?_
        rw [PlanJoin.operand, hparent.leftmost_eq hchild hjoin]
        exact hleftmost
      · refine .inr ((ihc hge hlt).elim (fun hleftmost => ?_) id)
        exact ⟨last.select, join, hjoin.select, hjoin.child_eq ▸ hleftmost⟩

end Trees

section Whole

variable {whole : JoinTree T C} {top : Operand}

/-- The conditions of a join compare different ids with the foreign keys of the left-most table on
its child side, one by one, and the last condition compares with none. -/
theorem Laid.exists_pairs (hplan : plan.Laid .parent whole [] ⟨0, 0⟩ plan.parts.mark top)
    {select : SelectId} {join : PlanJoin} (hselect : plan.selects[select]? = some (.join join)) :
    ∃ owner scan pairs rows, plan.leftmost join.child = some scan ∧ plan.scanAt owner = some scan ∧
      join.conditions = pairs ++ [rows] ∧ (pairs.map JoinCondition.left).Nodup ∧
      List.Forall₂ (plan.Compares scan) pairs scan.foreignKeys ∧
      ∀ owner' scan' stored, plan.scanAt owner' = some scan' →
        ¬ plan.Compares scan' rows stored := by
  obtain ⟨_, _, _, _, _, _, _, _, _, parent, child, _, -, hparent, -, hchild, hjoin, -⟩ :=
    hplan.exists_hasJoin_of_select hselect
  obtain ⟨-, -, hforeignKeys, -⟩ := hchild.offers
  obtain ⟨owner, scan, hleftmost, hscan, -, hspreads⟩ := (hjoin.aligned hparent hchild).leftmost
  rw [hjoin.child_eq, hforeignKeys] at hspreads
  have hlength : parent.id.length = child.foreignKeys.length := hchild.length_foreignKeys.symm
  refine ⟨owner, scan, _, _, hleftmost, hscan, hjoin.conditions, ?_, ?_, ?_⟩
  · have hnodup := hparent.nodup_id
    rw [← List.map_fst_zip (Nat.le_of_eq hlength)] at hnodup
    rw [List.map_map]
    exact hnodup
  · have hstored : List.Forall₂ (fun right stored => stored ∈ scan.foreignKeys ∧
        Relation.ReflTransGen plan.Spreads right stored) child.foreignKeys scan.foreignKeys :=
      ((List.forall₂_and_left _ _).mpr ⟨fun _ h => h, hspreads.flip⟩).flip
    have hrights : (parent.id.zip child.foreignKeys).map Prod.snd = child.foreignKeys :=
      List.map_snd_zip (Nat.le_of_eq hlength.symm)
    rw [← hrights, List.forall₂_map_left_iff] at hstored
    rw [List.forall₂_map_left_iff]
    exact hstored
  · intro owner' scan' stored hscan' ⟨hmem, hcompares⟩
    obtain ⟨_, -, _, _, _, -, hhas, -⟩ := hplan.exists_hasScan_of_scanAt hscan'
    exact hchild.not_spreads_rowNumber hhas hmem hcompares

/-- A scan that does not stand left-most in the whole plan is separated by names exactly if these
are different for its foreign keys. -/
theorem Laid.separates_iff (hplan : plan.Laid .parent whole [] ⟨0, 0⟩ plan.parts.mark top)
    {owner : SelectId} (hscan : plan.scanAt owner = some scan)
    (hother : plan.leftmost top.select ≠ some scan) {name : ColumnId → B} :
    plan.Separates scan name ↔ (scan.foreignKeys.map name).Nodup := by
  obtain ⟨_, -, _, _, _, -, hhas, -⟩ := hplan.exists_hasScan_of_scanAt hscan
  have hnodup := hhas.nodup_foreignKeys
  have hunique : Relator.RightUnique (plan.Compares scan) := fun _ _ _ h h' =>
    hhas.spreads_unique hhas h.1 h'.1 h.2 h'.2
  constructor
  · intro hseparates
    obtain ⟨outer, join, hjoin, hleftmost⟩ :=
      (hplan.exists_join_of_scanAt (Nat.zero_le _) (lt_of_scanAt hscan) hscan).resolve_left hother
    obtain ⟨_, scan', pairs, _, hleftmost', -, hconditions, hlefts, hpairs, -⟩ :=
      hplan.exists_pairs hjoin
    obtain rfl := Option.some.inj (hleftmost'.symm.trans hleftmost)
    apply List.Nodup.map_on _ hnodup
    intro stored hstored stored' hstored' hname
    obtain ⟨condition, hc, hcompares⟩ := exists_result_of_forall₂ hpairs.flip hstored
    obtain ⟨condition', hc', hcompares'⟩ := exists_result_of_forall₂ hpairs.flip hstored'
    have hleft := hseparates outer join hjoin condition (by simp [hconditions, hc]) condition'
      (by simp [hconditions, hc']) stored stored' hcompares hcompares' hname
    have hsame : condition = condition' := List.inj_on_of_nodup_map hlefts hc hc' hleft
    exact hunique hcompares (hsame ▸ hcompares')
  · intro hnames select join hjoin condition hc condition' hc' stored stored' hcompares hcompares'
      hname
    obtain ⟨owner', scan', pairs, rows, -, hscan', hconditions, -, hpairs, hrows⟩ :=
      hplan.exists_pairs hjoin
    obtain ⟨_, -, _, _, _, -, hhas', -⟩ := hplan.exists_hasScan_of_scanAt hscan'
    have hpair : ∀ {condition stored}, condition ∈ join.conditions →
        plan.Compares scan condition stored → condition ∈ pairs := fun hc hcompares => by
      rw [hconditions, List.mem_append, List.mem_singleton] at hc
      exact hc.resolve_right fun heq => hrows owner scan _ hscan (heq ▸ hcompares)
    -- the join compares with the foreign keys of this scan, and of no other
    obtain rfl : scan = scan' := by
      obtain ⟨column, hcolumn, hspreads⟩ := exists_result_of_forall₂ hpairs (hpair hc hcompares)
      obtain rfl := hhas.spreads_unique hhas' hcompares.1 hcolumn hcompares.2 hspreads.2
      have howner := hplan.scan_unique (Nat.zero_le _) (lt_of_scanAt hscan) (Nat.zero_le _)
        (lt_of_scanAt hscan') hscan hscan' (scan.foreignKeys_subset hcompares.1)
        (scan'.foreignKeys_subset hcolumn)
      exact Option.some.inj (hscan.symm.trans (howner ▸ hscan'))
    obtain rfl := List.inj_on_of_nodup_map hnames hcompares.1 hcompares'.1 hname
    exact congrArg JoinCondition.left (eq_of_forall₂_nodup hpairs hnodup hunique
      (hpair hc hcompares) (hpair hc' hcompares') hcompares hcompares')

end Whole

end Plan

end FlatAggregate
