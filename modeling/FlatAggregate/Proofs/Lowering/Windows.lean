import FlatAggregate.Proofs.Lowering.Exports
import FlatAggregate.Proofs.Statement.Windows

/-!
# Windows in queries

What a source shows is written as a reference, and only what no source of a level shows is computed
there. So it depends on what the operands of a select expose how far an expression unfolds. All that
a join takes from its sides is exposed by them, but for the row number of a bare table, which is the
number 1; the columns that it computes itself are two steps above that at most
(`Plan.HasJoin.isItem`). So all levels of a query have their windows on top.
-/

namespace FlatAggregate

variable {T C : Type} {plan : Plan T C} {scope : Scope}

/-- All that the sources of a level show is written as references. -/
def Scope.References (scope : Scope) : Prop :=
  ∀ entry ∈ scope, entry.2.expr.IsReference

theorem Scope.References.append {other : Scope} (h : scope.References) (h' : other.References) :
    (scope ++ other : Scope).References := fun entry hentry =>
  (List.mem_append.mp hentry).elim (h entry) (h' entry)

namespace Plan

section Expressions

variable {column : ColumnId} {expr : Expr}

theorem expression_of_earlier {key : ColumnId} {error : NamingError}
    (h : earlier column (fun p _ => plan.expression scope p) (.error error) key = .ok expr) :
    plan.expression scope key = .ok expr := by
  rw [earlier] at h
  split at h
  · exact h
  · cases h

theorem isReference_of_mem (hscope : scope.References)
    (hmem : plan.canonical column ∈ scope.map Prod.fst)
    (h : plan.expression scope column = .ok expr) : expr.IsReference := by
  obtain ⟨exposure, hfind⟩ := Scope.exists_find? hmem
  obtain rfl := Except.ok.inj ((plan.expression_of_find? hfind).symm.trans h)
  exact hscope _ (Scope.mem_of_find? hfind)

section Computed

variable (hmem : plan.canonical column ∉ scope.map Prod.fst)
  (h : plan.expression scope column = .ok expr)

include hmem h

theorem eq_literal_of_expression {value : Int64}
    (hcolumn : plan.columns[plan.canonical column]? = some (.literal value)) :
    expr = .literal value := by
  rw [expression] at h
  simp only [Scope.find?_eq_none hmem, hcolumn] at h
  exact (Except.ok.inj h).symm

theorem exists_greatest_of_expression {left right : ColumnId} {role : GreatestRole}
    (hcolumn : plan.columns[plan.canonical column]? = some (.greatest left right role)) :
    ∃ first second, expr = .call "GREATEST" [first, second] ∧
      plan.expression scope left = .ok first ∧ plan.expression scope right = .ok second := by
  rw [expression] at h
  simp only [Scope.find?_eq_none hmem, hcolumn] at h
  obtain ⟨first, hfirst, h⟩ := exists_of_bind_eq_ok h
  obtain ⟨second, hsecond, h⟩ := exists_of_bind_eq_ok h
  exact ⟨first, second, (Except.ok.inj h).symm, expression_of_earlier hfirst,
    expression_of_earlier hsecond⟩

omit hmem h in
theorem exists_key_of_mapM {keys : List ColumnId} {exprs : List Expr} {error : NamingError}
    (hkeys : keys.mapM (earlier column (fun p _ => plan.expression scope p) (.error error)) =
      .ok exprs) :
    ∀ expr ∈ exprs, ∃ key ∈ keys, plan.expression scope key = .ok expr := by
  intro expr hexpr
  obtain ⟨key, hkey, hearlier⟩ := exists_mem_of_forall₂ (forall₂_of_mapM_eq_ok hkeys) hexpr
  exact ⟨key, hkey, expression_of_earlier hearlier⟩

theorem exists_rowNumber_of_expression {partitionBy : List ColumnId}
    (hcolumn : plan.columns[plan.canonical column]? = some (.rowNumber partitionBy)) :
    ∃ keys, expr = .window "ROW_NUMBER" [] keys ∧
      ∀ key ∈ keys, ∃ source ∈ partitionBy, plan.expression scope source = .ok key := by
  rw [expression] at h
  simp only [Scope.find?_eq_none hmem, hcolumn] at h
  obtain ⟨keys, hkeys, h⟩ := exists_of_bind_eq_ok h
  exact ⟨keys, (Except.ok.inj h).symm, exists_key_of_mapM hkeys⟩

theorem exists_maxOver_of_expression {source : ColumnId} {partitionBy : List ColumnId}
    (hcolumn : plan.columns[plan.canonical column]? = some (.maxOver source partitionBy)) :
    ∃ operand keys, expr = .window "MAX" [operand] keys ∧
      plan.expression scope source = .ok operand ∧
      ∀ key ∈ keys, ∃ part ∈ partitionBy, plan.expression scope part = .ok key := by
  rw [expression] at h
  simp only [Scope.find?_eq_none hmem, hcolumn] at h
  obtain ⟨operand, hoperand, h⟩ := exists_of_bind_eq_ok h
  obtain ⟨keys, hkeys, h⟩ := exists_of_bind_eq_ok h
  exact ⟨operand, keys, (Except.ok.inj h).symm, expression_of_earlier hoperand,
    exists_key_of_mapM hkeys⟩

end Computed

end Expressions

section Tables

variable {spec : TableSpec T C} {incoming : List ColumnId} {mark : Mark} {next column : ColumnId}
  {scan : TableScan T} {expr : Expr} (hscan : plan.HasScan spec incoming mark next scan)
  (hscope : scope.References)
  (hcolumns : scope.map Prod.fst = scan.allColumns.map plan.canonical)
  (h : plan.expression scope column = .ok expr)

include hscan hscope hcolumns h

omit hscan in
theorem HasScan.isReference (hc : column ∈ scan.allColumns) : expr.IsReference :=
  isReference_of_mem hscope (hcolumns ▸ List.mem_map_of_mem hc) h

theorem HasScan.isItem_rowNumber
    (hrowNumber : plan.columns[next]? = some (.rowNumber scan.foreignKeys))
    (hc : column = next) : expr.IsItem := by
  subst hc
  have hcanonical : plan.canonical column = column := canonical_of_ne hrowNumber (by simp)
  have hmem : plan.canonical column ∉ scope.map Prod.fst := by
    rw [hcanonical, hcolumns]
    intro hmem
    obtain ⟨stored, hs, heq⟩ := List.mem_map.mp hmem
    rw [hscan.canonical_eq hs] at heq
    exact Nat.ne_of_lt (hscan.within hs).2 heq
  obtain ⟨keys, rfl, hkeys⟩ := exists_rowNumber_of_expression hmem h (hcanonical.symm ▸ hrowNumber)
  refine .rowNumber fun key hkey => ?_
  obtain ⟨source, hsource, hexpr⟩ := hkeys key hkey
  exact HasScan.isReference hscope hcolumns hexpr (scan.foreignKeys_subset hsource)

end Tables

section Joins

variable {side : Side} {left right : JoinTree T C} {incoming shown : List ColumnId}
  {first middle last : Mark} {next : Nat} {parent child : Operand} {multiplicity : Multiplicity}
  {join : PlanJoin} {column : ColumnId} {expr : Expr}
  (hparent : plan.Laid .parent left incoming first middle parent)
  (hchild : plan.Laid .child right parent.id middle last child) (hscope : scope.References)
  (hcolumns : scope.map Prod.fst = (parent.columns ++ child.columns).map plan.canonical)
  (h : plan.expression scope column = .ok expr)

include hparent hchild hscope hcolumns h

theorem Laid.isReference_operand
    (hc : column ∈ parent.id ++ parent.foreignKeys ++ parent.columns ∨
      column ∈ child.id ++ child.foreignKeys ++ child.columns) : expr.IsReference := by
  refine isReference_of_mem hscope ?_ h
  rw [hcolumns, List.map_append, List.mem_append]
  exact hc.imp hparent.canonical_mem hchild.canonical_mem

/-- The row number of the parent side is a reference, or that of a bare table. -/
theorem Laid.isAtom_parent_rowNumber (hc : column = parent.rowNumber) : expr.IsAtom := by
  subst hc
  rcases hparent.rowNumber_mem with hmem | ⟨-, hliteral⟩
  · exact .reference (hparent.isReference_operand hchild hscope hcolumns h
      (.inl (List.mem_append_right _ hmem)))
  · have hmem : plan.canonical parent.rowNumber ∉ scope.map Prod.fst := by
      rw [hcolumns]
      intro hmem
      obtain ⟨source, hs, heq⟩ := List.mem_map.mp hmem
      rcases List.mem_append.mp hs with hs | hs
      · exact hparent.not_literal (List.mem_append_right _ hs) 1 (heq ▸ hliteral)
      · exact hchild.not_literal (List.mem_append_right _ hs) 1 (heq ▸ hliteral)
    rw [eq_literal_of_expression hmem h hliteral]
    exact .one

theorem Laid.isReference_child_rowNumber (hc : column = child.rowNumber) : expr.IsReference := by
  subst hc
  have hmem : child.rowNumber ∈ child.columns :=
    hchild.rowNumber_mem.resolve_right fun h => absurd h.1 (by simp)
  exact hparent.isReference_operand hchild hscope hcolumns h (.inr (List.mem_append_right _ hmem))

variable (hjoin : plan.HasJoin parent child multiplicity last next join shown)

include hjoin

/-- The identity and the row number of a join are the greatest of two atoms. -/
theorem HasJoin.isGreatest (hc : column ∈ join.identity ++ [join.rowNumber]) :
    expr.IsGreatest := by
  have hown : column ∈ join.ownColumns := List.mem_append_left _ hc
  have hcanonical := hjoin.canonical_own hown
  have hmem : plan.canonical column ∉ scope.map Prod.fst :=
    hcanonical.symm ▸ hjoin.own_not_mem_scope hparent hchild hcolumns hown
  rcases List.mem_append.mp hc with hc | hc
  · obtain ⟨⟨l, r⟩, hpair, heq⟩ := hjoin.identity.exists_source hc
    obtain ⟨hl, hr⟩ := List.of_mem_zip hpair
    obtain ⟨greater, other, rfl, hgreater, hother⟩ :=
      exists_greatest_of_expression hmem h (hcanonical.symm ▸ heq)
    have hleft := hparent.isReference_operand hchild hscope hcolumns hgreater (.inl (by simp [hl]))
    have hright := hparent.isReference_operand hchild hscope hcolumns hother (.inr (by simp [hr]))
    exact .call (.reference hleft) (.reference hright)
  · obtain rfl := List.mem_singleton.mp hc
    obtain ⟨greater, other, rfl, hgreater, hother⟩ :=
      exists_greatest_of_expression hmem h (hcanonical.symm ▸ hjoin.rowNumber)
    have hright := hparent.isReference_child_rowNumber hchild hscope hcolumns hother rfl
    exact .call (hparent.isAtom_parent_rowNumber hchild hscope hcolumns hgreater rfl)
      (.reference hright)

theorem HasJoin.isItem (hc : column ∈ join.columns) : expr.IsItem := by
  rw [hjoin.columns, PlanJoin.ownColumns] at hc
  rcases List.mem_append.mp hc with hc | hc
  · refine .reference (isReference_of_mem hscope ?_ h)
    rw [hcolumns, ← hjoin.map_canonical_shown (hparent.front hchild)]
    exact List.mem_map_of_mem hc
  · rcases List.mem_append.mp hc with hc | hc
    · exact .greatest (HasJoin.isGreatest hparent hchild hscope hcolumns h hjoin hc)
    · have hown : column ∈ join.ownColumns := List.mem_append_right _ hc
      have hcanonical := hjoin.canonical_own hown
      obtain ⟨source, hs, heq⟩ := hjoin.maxOver_of_mem hc
      obtain ⟨operand, keys, rfl, hoperand, hkeys⟩ := exists_maxOver_of_expression
        (hcanonical.symm ▸ hjoin.own_not_mem_scope hparent hchild hcolumns hown) h
        (hcanonical.symm ▸ heq)
      refine .maxOver (hparent.isReference_operand hchild hscope hcolumns hoperand
        (.inl (by simp [hs]))) fun key hkey => ?_
      obtain ⟨part, hpart, hexpr⟩ := hkeys key hkey
      exact HasJoin.isGreatest hparent hchild hscope hcolumns hexpr hjoin
        (List.mem_append_left _ hpart)

omit h in
theorem HasJoin.isAtom_conditions {operations : List Operation}
    (hoperations : join.conditions.mapM (Lowering.condition plan scope) = .ok operations) :
    ∀ operation ∈ operations, ∃ left right, operation = Expr.equals left right ∧
      left.IsAtom ∧ right.IsAtom := by
  intro operation hoperation
  obtain ⟨compared, hc, hcondition⟩ :=
    exists_mem_of_forall₂ (forall₂_of_mapM_eq_ok hoperations) hoperation
  obtain ⟨left, hleft, hcondition⟩ := exists_of_bind_eq_ok hcondition
  obtain ⟨right, hright, hcondition⟩ := exists_of_bind_eq_ok hcondition
  refine ⟨left, right, (Except.ok.inj hcondition).symm, ?_⟩
  rw [hjoin.conditions] at hc
  rcases List.mem_append.mp hc with hc | hc
  · obtain ⟨⟨l, r⟩, hpair, rfl⟩ := List.mem_map.mp hc
    obtain ⟨hl, hr⟩ := List.of_mem_zip hpair
    exact ⟨.reference (hparent.isReference_operand hchild hscope hcolumns hleft
      (.inl (by simp [hl]))), .reference (hparent.isReference_operand hchild hscope hcolumns hright
      (.inr (by simp [hr])))⟩
  · obtain rfl := List.mem_singleton.mp hc
    exact ⟨hparent.isAtom_parent_rowNumber hchild hscope hcolumns hleft rfl,
      .reference (hparent.isReference_child_rowNumber hchild hscope hcolumns hright rfl)⟩

end Joins

end Plan

section Levels

variable [DecidableEq T] [DecidableEq C] {names : NameSource T C} {book : AliasBook T C}

theorem Source.Written.references {side : Side} {source : Source} {select : SelectId}
    (h : source.Written names plan book side select scope) : scope.References := by
  intro entry hentry
  obtain ⟨name, hexpr⟩ := h.exists_property entry hentry
  exact hexpr ▸ .property source.aliasName name

theorem SelectItem.isItem_of_exports {items : List SelectItem} {columns : List ColumnId}
    (hitems : List.Forall₂ (SelectItem.Exports names plan book scope) items columns)
    (h : ∀ column ∈ columns, ∀ expr, plan.expression scope column = .ok expr → expr.IsItem) :
    ∀ item ∈ items, item.expr.IsItem := by
  intro item hitem
  obtain ⟨column, hc, hexpr, -⟩ := exists_mem_of_forall₂ hitems hitem
  exact h column hc _ hexpr

namespace Statement.Written

variable {level : Statement} {spec : TableSpec T C} {left right : JoinTree T C}
  {incoming shown : List ColumnId} {first middle last : Mark} {next : Nat} {scan : TableScan T}
  {parent child : Operand} {multiplicity : Multiplicity} {join : PlanJoin}
  (horder : ∀ item ∈ level.orderBy, ∃ name, item.expr = .aliasRef name)

include horder

theorem windowsOnTop_scan (hscan : plan.HasScan spec incoming first next scan)
    (h : level.Written names plan book first.select) : level.WindowsOnTop := by
  have hlaid : plan.Laid .parent (.table spec) incoming first ⟨first.select + 1, next⟩
      (scan.operand first.select) := .scan hscan
  obtain ⟨items, source, scope, orderBy, rfl, hsource, hitems⟩ := h.of_scan hscan.select
  refine ⟨SelectItem.isItem_of_exports hitems fun column hc expr hexpr => ?_, by
    simp [Statement.conditions], horder⟩
  have hstored : plan.columnsOf first.select = scan.allColumns := hlaid.offers.1
  exact .reference (Plan.HasScan.isReference hsource.references (hlaid.map_fst_scope hsource) hexpr
    (hstored ▸ hc))

theorem windowsOnTop_view (hscan : plan.HasScan spec incoming first next scan)
    (hview : plan.selects[first.select + 1]? = some (.view first.select next))
    (hrowNumber : plan.columns[next]? = some (.rowNumber scan.foreignKeys))
    (h : level.Written names plan book (first.select + 1)) : level.WindowsOnTop := by
  have hlaid : plan.Laid .child (.table spec) incoming first ⟨first.select + 2, next + 1⟩
      (scan.viewOperand (first.select + 1) next) := .view hscan hview hrowNumber
  obtain ⟨items, source, scope, orderBy, rfl, hsource, hitems⟩ := h.of_view hview
  have hcolumns := (Plan.Laid.scan hscan).map_fst_scope hsource
  refine ⟨SelectItem.isItem_of_exports hitems fun column hc expr hexpr => ?_, by
    simp [Statement.conditions], horder⟩
  have hstored : plan.columnsOf (first.select + 1) = scan.allColumns ++ [next] := hlaid.offers.1
  rw [hstored] at hc
  rcases List.mem_append.mp hc with hc | hc
  · exact .reference (Plan.HasScan.isReference hsource.references hcolumns hexpr hc)
  · exact hscan.isItem_rowNumber hsource.references hcolumns hexpr hrowNumber
      (List.mem_singleton.mp hc)

theorem windowsOnTop_join (hparent : plan.Laid .parent left incoming first middle parent)
    (hchild : plan.Laid .child right parent.id middle last child)
    (hjoin : plan.HasJoin parent child multiplicity last next join shown)
    (h : level.Written names plan book last.select) : level.WindowsOnTop := by
  obtain ⟨items, source, source', scope, scope', operations, orderBy, rfl, hsource, hsource',
    hconditions, hitems⟩ := h.of_join hjoin.select
  rw [hjoin.parent_eq] at hsource
  rw [hjoin.child_eq] at hsource'
  have hscope : (scope ++ scope' : Scope).References :=
    hsource.references.append hsource'.references
  have hcolumns : (scope ++ scope').map Prod.fst =
      (parent.columns ++ child.columns).map plan.canonical := by
    rw [List.map_append, List.map_append, hparent.map_fst_scope hsource,
      hchild.map_fst_scope hsource']
  refine ⟨SelectItem.isItem_of_exports hitems fun column hc expr hexpr => ?_, ?_, horder⟩
  · have hmem : column ∈ join.columns := by
      rwa [Plan.columnsOf, hjoin.select] at hc
    exact Plan.HasJoin.isItem hparent hchild hscope hcolumns hexpr hjoin hmem
  · simpa [Statement.conditions] using
      Plan.HasJoin.isAtom_conditions hparent hchild hscope hcolumns hjoin hconditions

end Statement.Written

/-- A level that is written for a select of a plan made from a tree has its windows on top. -/
theorem Plan.Laid.windowsOnTop {whole : JoinTree T C} {top : Operand}
    (hplan : plan.Laid .parent whole [] ⟨0, 0⟩ plan.parts.mark top) {level : Statement}
    {select : SelectId} (h : level.Written names plan book select)
    (horder : ∀ item ∈ level.orderBy, ∃ name, item.expr = .aliasRef name) :
    level.WindowsOnTop := by
  obtain ⟨_, _, _, _, _, operand, hlaid, rfl⟩ := hplan.exists_laid (Nat.zero_le _) h.lt_size
  cases hlaid with
  | scan hscan => exact h.windowsOnTop_scan horder hscan
  | view hscan hview hrowNumber => exact h.windowsOnTop_view horder hscan hview hrowNumber
  | join hparent _ hchild hjoin => exact h.windowsOnTop_join horder hparent hchild hjoin

end Levels

namespace Draft

variable [DecidableEq T] [DecidableEq C] [ToString T] {root : TableSpec T C}
  {additions : List (Addition T C)} {draft : Draft T C} {names : NameSource T C}

/-- Windows stand only where SQL takes them, and expressions are inlined to a bounded depth. If the
name source knows the tables, then, whatever the settings, the query of an assembled aggregate has a
statement whose levels all have their windows on top: no window is nested in another expression or
stands in a condition, and no item is deeper than three expressions. -/
theorem windowsOnTop_query (h : assemble root additions = .ok draft)
    (hplan : draft.plan = .ok plan) (hknows : names.Knows (root :: additions.map Addition.spec))
    (settings : Settings) :
    ∃ statement book, (Lowering.query names plan).on { settings } = (.ok statement, book) ∧
      ∀ level ∈ statement.levels, level.WindowsOnTop ∧
        (∀ item ∈ level.items, item.expr.depth ≤ 3 ∧
          ∀ operand ∈ item.expr.operands, operand.windowFree) ∧
        ∀ condition ∈ level.conditions, ∀ operand ∈ condition.operands, operand.windowFree := by
  obtain ⟨top, hlaid, hroot, -, -⟩ := laid_of_assemble h hplan
  obtain ⟨statement, book, hstatement, -, hwritten, horder⟩ := Lowering.exists_written hknows hlaid
    (specs_of_assemble h).subset hroot (AliasBook.issued_empty names plan settings)
  refine ⟨statement, book, hstatement, fun level hlevel => ?_⟩
  have haliases : ∀ item ∈ level.orderBy, ∃ name, item.expr = .aliasRef name := by
    intro item hitem
    rcases hwritten.eq_or_orderBy_eq_nil hlevel with rfl | hnil
    · obtain ⟨_, -, name, rfl, -⟩ := exists_mem_of_forall₂ horder hitem
      exact ⟨name, rfl⟩
    · simp [hnil] at hitem
  obtain ⟨select, hselect⟩ := hwritten.exists_of_mem_levels hlevel
  have htop := hlaid.windowsOnTop hselect haliases
  exact ⟨htop, fun item hitem => ⟨htop.depth_le item hitem, htop.windowFree_of_item item hitem⟩,
    htop.windowFree_of_condition⟩

/-- A root with a child and a grandchild, and a second child with a key. -/
theorem windowsOnTop_query_siblings :
    let root : TableSpec Nat Nat := { table := 0, id := some 10, columns := [11] }
    let additions : List (Addition Nat Nat) :=
      [⟨0, .multiple, { table := 1, id := some 20 }⟩, ⟨1, .single, { table := 2, columns := [30] }⟩,
        ⟨0, .multiple, { table := 3, key := some 40 }⟩]
    let names : NameSource Nat Nat := .ofText
    ∃ (draft : Draft Nat Nat) (plan : Plan Nat Nat), assemble root additions = .ok draft ∧
      draft.plan = .ok plan ∧ names.Knows (root :: additions.map Addition.spec) ∧
      ∃ statement book, (Lowering.query names plan).on { settings := {} } = (.ok statement, book) ∧
        ∀ level ∈ statement.levels, level.WindowsOnTop ∧
          (∀ item ∈ level.items, item.expr.depth ≤ 3 ∧
            ∀ operand ∈ item.expr.operands, operand.windowFree) ∧
          ∀ condition ∈ level.conditions, ∀ operand ∈ condition.operands, operand.windowFree := by
  intro root additions names
  obtain ⟨draft, h⟩ : ∃ draft, assemble root additions = .ok draft := ⟨_, rfl⟩
  obtain ⟨-, plan, hplan⟩ := plan_of_assemble h
  have hknows : names.Knows (root :: additions.map Addition.spec) :=
    ⟨fun _ _ => ⟨_, rfl⟩, fun _ _ _ _ => ⟨_, rfl⟩⟩
  exact ⟨draft, plan, h, hplan, hknows, windowsOnTop_query h hplan hknows {}⟩

end Draft

end FlatAggregate
