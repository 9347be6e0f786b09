import FlatAggregate.Proofs.Lowering.SelectLists

/-!
# Tables

A bare table under an alias presents its scan: all columns that the scan lists are stored in the
table. A scan and a view read them off its rows, and a view numbers the rows that agree on the
foreign keys.

`Plan.database` puts the rows of the tables under the names by which they are stored, so the same
rows are read by the plan, through handles, and by the statement, through names.
-/

namespace FlatAggregate

variable {T C V : Type}

/-- The rows of the tables of a plan, by the names under which they store their columns. -/
def Plan.database (plan : Plan T C) (names : NameSource T C) (sql : SqlDatabase V) :
    Database T V := fun table =>
  match names.tableName table with
  | .ok name => (sql name).map fun row column => (names.stored? plan column).bind row
  | .error _ => []

namespace Plan.HasScan

variable [Domain V] {plan : Plan T C} {spec : TableSpec T C} {incoming : List ColumnId}
  {mark : Mark} {next column : ColumnId} {scan : TableScan T} {view : SourceView V}
  {label : ColumnId → String} {tuples finals : List (Tuple T V)}
  (hscan : plan.HasScan spec incoming mark next scan)
  (hview : view.Presents plan label scan.allColumns tuples)

include hscan hview

theorem expresses (hc : column ∈ scan.allColumns) :
    plan.Expresses view.scope view.level.sources view.Stands column (plan.read · column) :=
  hview.expresses hc fun value => (hscan.canonical_eq hc).symm ▸ hscan.not_literal hc value

theorem gives_stored (hc : column ∈ scan.allColumns)
    (hfinals : ∀ (position : Nat) (tuple final : Tuple T V), tuples[position]? = some tuple →
      finals[position]? = some final → plan.read final column = plan.read tuple column) :
    ∃ expr, plan.expression view.scope column = .ok expr ∧
      expr.Gives plan view.level finals column := by
  obtain ⟨expr, hexpr, hdenotes⟩ := hscan.expresses hview hc
  refine ⟨expr, hexpr, hdenotes.gives fun position row final hrow hfinal => ?_⟩
  obtain ⟨tuple, htuple, hstands⟩ := exists_getElem?_of_forall₂ hview.stands hrow
  exact ⟨tuple, hstands, hfinals position tuple final htuple hfinal⟩

theorem gives_rowNumber (hrowNumber : plan.columns[next]? = some (.rowNumber scan.foreignKeys)) :
    ∃ expr, plan.expression view.scope next = .ok expr ∧
      expr.Gives plan view.level (plan.compute [next] tuples) next := by
  have hmem : next ∉ view.scope.map Prod.fst := fun hmem => by
    rw [SourceView.map_fst_scope, hview.columns_eq] at hmem
    obtain ⟨column, hc, heq⟩ := List.mem_map.mp hmem
    rw [hscan.canonical_eq hc] at heq
    exact Nat.ne_of_lt (hscan.within hc).2 heq
  have hcanonical : plan.canonical next = next := canonical_of_ne hrowNumber (by simp)
  have hliteral : ∀ value, plan.columns[plan.canonical next]? ≠ some (.literal value) := by
    simp [hcanonical, hrowNumber]
  obtain ⟨keys, hexpr, hkeys⟩ := expression_rowNumber hmem hrowNumber
    (fun key hkey => (hscan.within (scan.foreignKeys_subset hkey)).2)
    (fun key hkey => hscan.expresses hview (scan.foreignKeys_subset hkey))
  obtain ⟨reading, hreading, hvalue⟩ := Expr.itemReading_rowNumber hkeys
  refine ⟨_, hexpr, reading, hreading, fun position row final hrow hfinal => ?_⟩
  obtain ⟨tuple, htuple, hstands⟩ := exists_getElem?_of_forall₂ hview.stands hrow
  rw [compute, List.getElem?_mapIdx, htuple, Option.map_some] at hfinal
  rw [hvalue _ _ hview.stands position row tuple hstands, ← Option.some.inj hfinal,
    read_of_not_literal hliteral, hcanonical,
    Tuple.value_withValues_of_mem (List.mem_singleton_self next), computed, hrowNumber]
  simp only [List.map_map]
  rfl

omit hview in
/-- The number of a view leaves the columns of the table as they are. -/
theorem read_compute (hc : column ∈ scan.allColumns) {position : Nat} {tuple final : Tuple T V}
    (htuple : tuples[position]? = some tuple)
    (hfinal : (plan.compute [next] tuples)[position]? = some final) :
    plan.read final column = plan.read tuple column := by
  rw [compute, List.getElem?_mapIdx, htuple, Option.map_some] at hfinal
  have hne : plan.canonical column ∉ [next] := fun hmem => by
    rw [hscan.canonical_eq hc, List.mem_singleton] at hmem
    exact Nat.ne_of_lt (hscan.within hc).2 hmem
  rw [← Option.some.inj hfinal, read, read, Tuple.value_withValues_of_not_mem hne]

end Plan.HasScan

namespace Lowering

variable {names : NameSource T C} {plan : Plan T C}

theorem exists_tableScope (aliasName : String) {columns : List ColumnId}
    (h : ∀ column ∈ columns, ∃ name, storedColumn names plan column = .ok (some name)) :
    ∃ shown : List (ColumnId × String),
      tableScope names plan aliasName columns =
        .ok (shown.map fun (column, name) => (column, ⟨.property aliasName name, false⟩)) ∧
      shown.map Prod.fst = columns ∧
      ∀ entry ∈ shown, names.stored? plan entry.1 = some entry.2 := by
  obtain ⟨stored, hstored, hall⟩ := exists_mapM_eq_pure (m := Except NamingError)
    (f := fun column => do return (column, ← storedColumn names plan column))
    (P := fun column result => ∃ name, result = (column, some name) ∧
      storedColumn names plan column = .ok (some name)) fun column hc => by
        obtain ⟨name, hname⟩ := h column hc
        exact ⟨(column, some name), by rw [hname]; rfl, name, rfl, hname⟩
  have hscope : tableScope names plan aliasName columns =
      .ok (stored.filterMap fun entry =>
        entry.2.map fun name => (entry.1, ⟨.property aliasName name, false⟩)) := by
    rw [tableScope, hstored]
    rfl
  rw [hscope]
  clear hstored hscope h
  induction hall with
  | nil => exact ⟨[], rfl, rfl, by simp⟩
  | @cons column _ columns _ hhead _ ih =>
      obtain ⟨name, rfl, hname⟩ := hhead
      obtain ⟨shown, heq, hfst, hshown⟩ := ih
      refine ⟨(column, name) :: shown, ?_, ?_, ?_⟩
      · simp only [List.filterMap_cons, Option.map_some, List.map_cons, Except.ok.inj heq]
      · rw [List.map_cons, hfst]
      · intro entry hentry
        rcases List.mem_cons.mp hentry with rfl | hentry
        · exact NameSource.stored?_of_storedColumn hname
        · exact hshown entry hentry

variable [DecidableEq T] [DecidableEq C] {book : AliasBook T C}
  (hbook : book.Settled names plan)

section Tables

variable {specs : List (TableSpec T C)} {spec : TableSpec T C} {incoming : List ColumnId}
  {mark : Mark} {next : Nat} {scan : TableScan T} (hknows : names.Knows specs)
  (hspec : spec ∈ specs) (hincoming : plan.Incoming specs mark incoming)
  (hscan : plan.HasScan spec incoming mark next scan)

include hbook hknows hspec hincoming hscan

theorem on_tableSource_eq :
    ∃ (name : String) (shown : List (ColumnId × String)),
      names.tableName scan.table = .ok name ∧
      (tableSource names plan mark.select scan).on book =
        (.ok (.table name (book.aliasAt (.select mark.select)), shown.map fun (column, name) =>
          (column, ⟨.property (book.aliasAt (.select mark.select)) name, false⟩)), book) ∧
      shown.map Prod.fst = scan.allColumns ∧
      ∀ entry ∈ shown, names.stored? plan entry.1 = some entry.2 := by
  have hlt : mark.select < plan.selects.size := (Array.getElem?_eq_some_iff.mp hscan.select).1
  obtain ⟨name, hname⟩ := hknows.tableName spec hspec
  rw [← hscan.table] at hname
  obtain ⟨shown, hscope, hfst, hshown⟩ := exists_tableScope (book.aliasAt (.select mark.select))
    fun column hc => hscan.storedColumn hknows hspec hincoming hc
  refine ⟨name, shown, hname, ?_, hfst, hshown⟩
  rw [tableSource, Aliasing.on_bind_ok (hbook.on_select hlt), hscope, Aliasing.lift_ok_bind,
    hname, Aliasing.lift_ok_bind, Aliasing.on_pure]

theorem on_tableSource [Domain V] (sql : SqlDatabase V) :
    ∃ (source : Source) (view : SourceView V),
      (tableSource names plan mark.select scan).on book = (.ok (source, view.scope), book) ∧
      source.eval sql = some view.level ∧ view.aliasName = book.aliasAt (.select mark.select) ∧
      view.Presents plan book.label scan.allColumns
        (Plan.scanRows (plan.database names sql) scan) := by
  obtain ⟨name, shown, hname, hsource, hfst, hshown⟩ :=
    on_tableSource_eq hbook hknows hspec hincoming hscan
  let view : SourceView V :=
    { aliasName := book.aliasAt (.select mark.select), aliased := false, shown
      offers := fun _ => true, rows := sql name }
  refine ⟨.table name view.aliasName, view, hsource, ?_, rfl, ?_⟩
  · rw [Source.eval]
    rfl
  · constructor
    · rw [List.map_congr_left fun c hc => hscan.canonical_eq hc, List.map_id']
      exact hfst
    · exact fun _ _ => rfl
    · exact fun haliased => absurd haliased (by simp [view])
    · rw [Plan.scanRows, Plan.database, hname]
      refine List.forall₂_iff_get.mpr ⟨by simp [view], fun i hi hi' entry hentry => ?_⟩
      have hc : entry.1 ∈ scan.allColumns := hfst ▸ List.mem_map_of_mem hentry
      simp [Plan.scanRow, hc, hshown entry hentry, view]

end Tables

end Lowering

end FlatAggregate
