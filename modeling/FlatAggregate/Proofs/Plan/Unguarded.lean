import FlatAggregate.Plan.Text
import FlatAggregate.Proofs.Plan.Handles

/-!
# Following handles without a guard

The functions that follow the references of a plan read an entry only if it is earlier. Here are the
same functions without this check, for a given depth of calls. They give nothing where a handle
leads out of the plan, or where the calls get deeper than that.

On an ordered plan (`Plan.Ordered`) no handle leads out of the plan, and the depth of the calls is
bounded by the number of entries. So the check is never needed there, and both versions agree on all
handles of the plan.
-/

namespace FlatAggregate

variable {T C A : Type}

namespace Unguarded

variable (plan : Plan T C)

def canonical : (depth : Nat) → ColumnId → Option ColumnId
  | 0, _ => none
  | depth + 1, column => do
    match ← plan.columns[column]? with
    | .derived source => canonical depth source
    | _ => return column

def sourceColumn : (depth : Nat) → ColumnId → Option (Option C)
  | 0, _ => none
  | depth + 1, column => do
    match ← plan.columns[column]? with
    | .base token => return some token
    | .derived source => sourceColumn depth source
    | .foreignKey references _ => sourceColumn depth references
    | _ => return none

/-- Reads a select, a view by way of its table. -/
def readThrough (scan : TableScan T → A) (view : A → ColumnId → A) (join : PlanJoin → A) :
    (depth : Nat) → SelectId → Option A
  | 0, _ => none
  | depth + 1, select => do
    match ← plan.selects[select]? with
    | .scan found => return scan found
    | .view table rowNumber =>
      return view (← readThrough scan view join depth table) rowNumber
    | .join found => return join found

def columnsOf : (depth : Nat) → SelectId → Option (List ColumnId) :=
  readThrough plan TableScan.allColumns (fun columns rowNumber => columns ++ [rowNumber])
    PlanJoin.columns

def idOf : (depth : Nat) → SelectId → Option (List ColumnId) :=
  readThrough plan TableScan.idColumns (fun id _ => id) PlanJoin.id

def tableScan : (depth : Nat) → SelectId → Option (Option (TableScan T)) :=
  readThrough plan some (fun scan _ => scan) (fun _ => none)

def tableOf : (depth : Nat) → SelectId → Option T
  | 0, _ => none
  | depth + 1, select => do
    match ← plan.selects[select]? with
    | .scan scan => return scan.table
    | .view table _ => tableOf depth table
    | .join join => tableOf depth join.parent

section Texts

variable [ToString T] [ToString C]

def columnText : (depth : Nat) → ColumnId → Option String
  | 0, _ => none
  | depth + 1, column => do
    let texts (columns : List ColumnId) : Option String := do
      return ", ".intercalate (← columns.mapM (columnText depth))
    match ← plan.columns[column]? with
    | .base token => return toString token
    | .derived source => columnText depth source
    | .foreignKey references owner =>
      return "FK(" ++ toString (← tableOf plan depth owner) ++ ", " ++
        (← columnText depth references) ++ ")"
    | .rowNumber partitionBy => return "RN(" ++ (← texts partitionBy) ++ ")"
    | .greatest left right _ =>
      return "greatest(" ++ (← columnText depth left) ++ ", " ++ (← columnText depth right) ++ ")"
    | .maxOver source partitionBy =>
      return "maxOver(" ++ (← columnText depth source) ++ ", " ++ (← texts partitionBy) ++ ")"
    | .literal value => return "lit(" ++ toString value.toInt ++ ")"

def conditionText (depth : Nat) (condition : JoinCondition) : Option String := do
  return "eq(" ++ (← columnText plan depth condition.left) ++ ", " ++
    (← columnText plan depth condition.right) ++ ")"

def selectText : (depth : Nat) → SelectId → Option String
  | 0, _ => none
  | depth + 1, select => do
    match ← plan.selects[select]? with
    | .scan scan => return "TD\x7b" ++ toString scan.table ++ "\x7d"
    | .view table _ => return "AV\x7b" ++ (← selectText depth table) ++ "\x7d"
    | .join join =>
      return "AJ\x7b" ++ ", ".intercalate ((← selectText depth join.parent) ::
        (← selectText depth join.child) ::
        (← join.conditions.mapM (conditionText plan depth))) ++ "\x7d"

end Texts

end Unguarded

/-- On all handles of a plan the functions without a guard come to an end within a depth of calls
and give what the guarded ones give. -/
structure Plan.FollowedWithin [ToString T] [ToString C] (plan : Plan T C) (depth : Nat) :
    Prop where
  canonical : ∀ column < plan.columns.size,
    Unguarded.canonical plan depth column = some (plan.canonical column)
  sourceColumn : ∀ column < plan.columns.size,
    Unguarded.sourceColumn plan depth column = some (plan.sourceColumn column)
  columnText : ∀ column < plan.columns.size,
    Unguarded.columnText plan depth column = some (plan.columnText column)
  selectText : ∀ select < plan.selects.size,
    Unguarded.selectText plan depth select = some (plan.selectText select)
  columnsOf : ∀ select < plan.selects.size,
    Unguarded.columnsOf plan depth select = some (plan.columnsOf select)
  idOf : ∀ select < plan.selects.size, Unguarded.idOf plan depth select = some (plan.idOf select)
  tableScan : ∀ select < plan.selects.size,
    Unguarded.tableScan plan depth select = some (plan.tableScan select)
  tableOf : ∀ select < plan.selects.size, ∃ table,
    Unguarded.tableOf plan depth select = some table ∧ plan.tableOf select = some table

/-- A property of entries and depths passes from the entries in front to the entry itself, one call
deeper. Then an entry has it at every depth behind its place and a spare part. -/
theorem depth_induction {entries : Array A} (spare : Nat) {P : Nat → Nat → Prop}
    (step : ∀ depth ≥ spare, ∀ n entry, entries[n]? = some entry → (∀ m < n, P m depth) →
      P n (depth + 1))
    {n : Nat} (hn : n < entries.size) : ∀ depth > n + spare, P n depth := by
  induction n using Nat.strongRecOn with
  | ind n ih =>
    intro depth hdepth
    obtain ⟨depth, rfl⟩ := Nat.exists_eq_add_one_of_ne_zero (Nat.ne_zero_of_lt hdepth)
    refine step depth (by omega) n entries[n] (Array.getElem?_eq_getElem hn) fun m hm => ?_
    exact ih m hm (Nat.lt_trans hm hn) depth (by omega)

namespace Plan.Ordered

variable {plan : Plan T C} {column select : Nat}

theorem column_induction (h : plan.Ordered) (spare : Nat) {P : ColumnId → Nat → Prop}
    (step : ∀ depth ≥ spare, ∀ (column : ColumnId) (definition : PlanColumn C),
      plan.columns[column]? = some definition →
        (∀ source ∈ definition.sources, source < column ∧ P source depth) →
          P column (depth + 1))
    (hc : column < plan.columns.size) : ∀ depth > column + spare, P column depth := by
  refine depth_induction (P := P) spare (fun depth hspare column definition hd ih => ?_) hc
  refine step depth hspare column definition hd fun source hs => ?_
  have hlt := h.source_lt column definition hd source hs
  exact ⟨hlt, ih source hlt⟩

theorem select_induction (h : plan.Ordered) (spare : Nat) {P : SelectId → Nat → Prop}
    (step : ∀ depth ≥ spare, ∀ (select : SelectId) (definition : PlanSelect T),
      plan.selects[select]? = some definition →
        (∀ operand ∈ plan.operandsOf select, operand < select ∧ P operand depth) →
          P select (depth + 1))
    (hs : select < plan.selects.size) : ∀ depth > select + spare, P select depth := by
  refine depth_induction (P := P) spare (fun depth hspare select definition hd ih => ?_) hs
  refine step depth hspare select definition hd fun operand ho => ?_
  have hlt := h.operand_lt select operand ho
  exact ⟨hlt, ih operand hlt⟩

section Columns

theorem canonical_eq (h : plan.Ordered) (hc : column < plan.columns.size) :
    ∀ depth > column, Unguarded.canonical plan depth column = some (plan.canonical column) := by
  refine h.column_induction 0
    (P := fun column depth => Unguarded.canonical plan depth column = some (plan.canonical column))
    (fun depth _ column definition hd ih => ?_) hc
  rw [Unguarded.canonical, Plan.canonical, hd]
  cases definition with
  | derived source =>
      obtain ⟨hlt, heq⟩ := ih source List.mem_cons_self
      simpa [earlier, hlt] using heq
  | _ => rfl

theorem sourceColumn_eq (h : plan.Ordered) (hc : column < plan.columns.size) :
    ∀ depth > column,
      Unguarded.sourceColumn plan depth column = some (plan.sourceColumn column) := by
  refine h.column_induction 0
    (P := fun column depth => Unguarded.sourceColumn plan depth column =
      some (plan.sourceColumn column))
    (fun depth _ column definition hd ih => ?_) hc
  rw [Unguarded.sourceColumn, Plan.sourceColumn, hd]
  cases definition with
  | derived source =>
      obtain ⟨hlt, heq⟩ := ih source List.mem_cons_self
      simpa [earlier, hlt] using heq
  | foreignKey references owner =>
      obtain ⟨hlt, heq⟩ := ih references List.mem_cons_self
      simpa [earlier, hlt] using heq
  | _ => rfl

end Columns

section Selects

/-- A function that reads scans and joins alike, and views by way of their tables, is found again
without a guard. -/
theorem readThrough_eq (h : plan.Ordered) {scan : TableScan T → A} {view : A → ColumnId → A}
    {join : PlanJoin → A} {f : SelectId → A}
    (hscan : ∀ select found, plan.selects[select]? = some (.scan found) → f select = scan found)
    (hview : ∀ (select table : SelectId) (rowNumber : ColumnId) (found : TableScan T),
      plan.selects[select]? = some (.view table rowNumber) → plan.scanAt table = some found →
        f select = view (scan found) rowNumber)
    (hjoin : ∀ select found, plan.selects[select]? = some (.join found) → f select = join found)
    (hs : select < plan.selects.size) : ∀ depth > select,
      Unguarded.readThrough plan scan view join depth select = some (f select) := by
  refine h.select_induction 0
    (P := fun select depth => Unguarded.readThrough plan scan view join depth select =
      some (f select))
    (fun depth _ select definition hd ih => ?_) hs
  rw [Unguarded.readThrough, hd]
  cases definition with
  | scan found =>
      rw [hscan select found hd]
      rfl
  | view table rowNumber =>
      obtain ⟨found, hfound⟩ := h.view select table rowNumber hd
      obtain ⟨-, heq⟩ := ih table (by simp [operandsOf, hd])
      rw [hview select table rowNumber found hd hfound,
        ← hscan table found (select_of_scanAt hfound)]
      simp only [Option.bind_eq_bind, Option.bind_some, heq]
      rfl
  | join found =>
      rw [hjoin select found hd]
      rfl

theorem columnsOf_eq (h : plan.Ordered) (hs : select < plan.selects.size) :
    ∀ depth > select, Unguarded.columnsOf plan depth select = some (plan.columnsOf select) := by
  refine h.readThrough_eq (fun select found hd => ?_)
    (fun select table rowNumber found hd hfound => ?_) (fun select found hd => ?_) hs
  all_goals simp [Plan.columnsOf, *]

theorem idOf_eq (h : plan.Ordered) (hs : select < plan.selects.size) :
    ∀ depth > select, Unguarded.idOf plan depth select = some (plan.idOf select) := by
  refine h.readThrough_eq (fun select found hd => ?_)
    (fun select table rowNumber found hd hfound => ?_) (fun select found hd => ?_) hs
  all_goals simp [Plan.idOf, *]

theorem tableScan_eq (h : plan.Ordered) (hs : select < plan.selects.size) :
    ∀ depth > select, Unguarded.tableScan plan depth select = some (plan.tableScan select) := by
  refine h.readThrough_eq (fun select found hd => ?_)
    (fun select table rowNumber found hd hfound => ?_) (fun select found hd => ?_) hs
  all_goals simp [Plan.tableScan, *]

theorem exists_tableOf (h : plan.Ordered) (hs : select < plan.selects.size) :
    ∀ depth > select, ∃ table, Unguarded.tableOf plan depth select = some table ∧
      plan.tableOf select = some table := by
  refine h.select_induction 0
    (P := fun select depth => ∃ table, Unguarded.tableOf plan depth select = some table ∧
      plan.tableOf select = some table)
    (fun depth _ select definition hd ih => ?_) hs
  rw [Unguarded.tableOf, Plan.tableOf, hd]
  cases definition with
  | scan scan => exact ⟨scan.table, rfl, rfl⟩
  | view table rowNumber =>
      obtain ⟨hlt, found, hfound, heq⟩ := ih table (by simp [operandsOf, hd])
      exact ⟨found, hfound, by simpa [earlier, hlt] using heq⟩
  | join join =>
      obtain ⟨hlt, found, hfound, heq⟩ := ih join.parent (by simp [operandsOf, hd])
      exact ⟨found, hfound, by simpa [earlier, hlt] using heq⟩

end Selects

section Texts

variable [ToString T] [ToString C]

/-- Below the calls for columns are those for the table of a foreign key. -/
theorem columnText_eq (h : plan.Ordered) (hc : column < plan.columns.size) :
    ∀ depth > column + plan.selects.size,
      Unguarded.columnText plan depth column = some (plan.columnText column) := by
  refine h.column_induction plan.selects.size
    (P := fun column depth => Unguarded.columnText plan depth column =
      some (plan.columnText column))
    (fun depth hspare column definition hd ih => ?_) hc
  have htext : ∀ source ∈ definition.sources, Unguarded.columnText plan depth source =
      some (earlier column (fun p _ => plan.columnText p) "" source) := fun source hs => by
    obtain ⟨hlt, heq⟩ := ih source hs
    simpa only [earlier, dif_pos hlt] using heq
  have htexts : ∀ columns ⊆ definition.sources, columns.mapM (Unguarded.columnText plan depth) =
      some (columns.map (earlier column (fun p _ => plan.columnText p) "")) := fun columns hsub =>
    (mapM_congr_left fun c hmem => htext c (hsub hmem)).trans List.mapM_pure
  rw [Unguarded.columnText, Plan.columnText, hd]
  cases definition with
  | base token => rfl
  | derived source => exact htext source List.mem_cons_self
  | foreignKey references owner =>
      obtain ⟨⟨scan, hscan, -⟩, -⟩ := h.owner column references owner hd
      have howner : owner < plan.selects.size := lt_of_scanAt hscan
      have hlt : owner < depth := Nat.lt_of_lt_of_le howner hspare
      obtain ⟨table, htable, heq⟩ := h.exists_tableOf howner depth hlt
      simp only [Option.bind_eq_bind, Option.bind_some, htable,
        htext references List.mem_cons_self, Plan.tableText, heq]
      rfl
  | rowNumber partitionBy =>
      simp only [Option.bind_eq_bind, Option.bind_some, htexts partitionBy (List.Subset.refl _)]
      rfl
  | greatest left right role =>
      simp only [Option.bind_eq_bind, Option.bind_some, htext left List.mem_cons_self,
        htext right (List.mem_cons_of_mem _ List.mem_cons_self)]
      rfl
  | maxOver source partitionBy =>
      simp only [Option.bind_eq_bind, Option.bind_some, htext source List.mem_cons_self,
        htexts partitionBy (List.subset_cons_self _ _)]
      rfl
  | literal value => rfl

theorem selectText_eq (h : plan.Ordered) (hs : select < plan.selects.size) :
    ∀ depth > select + (plan.columns.size + plan.selects.size),
      Unguarded.selectText plan depth select = some (plan.selectText select) := by
  refine h.select_induction (plan.columns.size + plan.selects.size)
    (P := fun select depth => Unguarded.selectText plan depth select =
      some (plan.selectText select))
    (fun depth hspare select definition hd ih => ?_) hs
  have htext : ∀ operand ∈ plan.operandsOf select, Unguarded.selectText plan depth operand =
      some (earlier select (fun p _ => plan.selectText p) "" operand) := fun operand ho => by
    obtain ⟨hlt, heq⟩ := ih operand ho
    simpa only [earlier, dif_pos hlt] using heq
  rw [Unguarded.selectText, Plan.selectText, hd]
  cases definition with
  | scan scan => rfl
  | view table rowNumber =>
      simp only [Option.bind_eq_bind, Option.bind_some, htext table (by simp [operandsOf, hd])]
      rfl
  | join join =>
      have hconditions : join.conditions.mapM (Unguarded.conditionText plan depth) =
          some (join.conditions.map plan.conditionText) := by
        refine (mapM_congr_left fun condition hcondition => ?_).trans List.mapM_pure
        have hcolumn : ∀ c ∈ [condition.left, condition.right],
            Unguarded.columnText plan depth c = some (plan.columnText c) := fun c hc => by
          have hlt : c < plan.columns.size := by
            apply h.handle_lt select _ hd
            simp only [PlanSelect.handles, List.mem_append, List.mem_flatMap]
            exact .inl (.inl (.inl (.inl (.inl ⟨condition, hcondition, hc⟩))))
          exact h.columnText_eq hlt depth
            (Nat.lt_of_lt_of_le (Nat.add_lt_add_right hlt _) hspare)
        rw [Unguarded.conditionText, hcolumn _ List.mem_cons_self,
          hcolumn _ (List.mem_cons_of_mem _ List.mem_cons_self)]
        rfl
      simp only [Option.bind_eq_bind, Option.bind_some, hconditions,
        htext join.parent (by simp [operandsOf, hd]), htext join.child (by simp [operandsOf, hd])]
      rfl

theorem followedWithin (h : plan.Ordered) {depth : Nat}
    (hdepth : plan.selects.size + (plan.columns.size + plan.selects.size) ≤ depth) :
    plan.FollowedWithin depth where
  canonical column hc := h.canonical_eq hc depth (by omega)
  sourceColumn column hc := h.sourceColumn_eq hc depth (by omega)
  columnText column hc := h.columnText_eq hc depth (by omega)
  selectText select hs := h.selectText_eq hs depth (by omega)
  columnsOf select hs := h.columnsOf_eq hs depth (by omega)
  idOf select hs := h.idOf_eq hs depth (by omega)
  tableScan select hs := h.tableScan_eq hs depth (by omega)
  tableOf select hs := h.exists_tableOf hs depth (by omega)

end Texts

end Plan.Ordered

namespace Draft

variable [DecidableEq T] [ToString T] [ToString C] {root : TableSpec T C}
  {additions : List (Addition T C)} {draft : Draft T C} {plan : Plan T C}

/-- In an assembled plan every entry refers to entries in front of it. So all references can be
followed without a guard, at any depth of calls that the plan's length allows for, and every foreign
key reads a column of some table in the end. -/
theorem ordered_of_assemble (h : assemble root additions = .ok draft)
    (hplan : draft.plan = .ok plan) :
    plan.Ordered ∧
    (∀ depth, plan.selects.size + (plan.columns.size + plan.selects.size) ≤ depth →
      plan.FollowedWithin depth) ∧
    ∀ (column references : ColumnId) (owner : SelectId),
      plan.columns[column]? = some (.foreignKey references owner) →
        ∃ token, plan.sourceColumn column = some token := by
  obtain ⟨top, hlaid, hroot, -⟩ := laid_of_assemble h hplan
  have hordered := hlaid.ordered hroot
  exact ⟨hordered, fun _ => hordered.followedWithin, fun _ _ _ => hlaid.exists_sourceColumn⟩

/-- A child with a key only, which has two children of its own. -/
theorem ordered_of_assemble_siblings :
    let root : TableSpec Nat Nat := { table := 0, id := some 10 }
    let additions : List (Addition Nat Nat) :=
      [⟨0, .multiple, { table := 1, key := some 11 }⟩, ⟨1, .multiple, { table := 2 }⟩,
        ⟨1, .single, { table := 3, columns := [30] }⟩]
    ∃ (draft : Draft Nat Nat) (plan : Plan Nat Nat), assemble root additions = .ok draft ∧
      draft.plan = .ok plan ∧ plan.Ordered ∧
      (∀ depth, plan.selects.size + (plan.columns.size + plan.selects.size) ≤ depth →
        plan.FollowedWithin depth) ∧
      ∀ (column references : ColumnId) (owner : SelectId),
        plan.columns[column]? = some (.foreignKey references owner) →
          ∃ token, plan.sourceColumn column = some token := by
  intro root additions
  obtain ⟨draft, h⟩ : ∃ draft, assemble root additions = .ok draft := ⟨_, rfl⟩
  obtain ⟨-, plan, hplan⟩ := plan_of_assemble h
  exact ⟨draft, plan, h, hplan, ordered_of_assemble h hplan⟩

end Draft

end FlatAggregate
