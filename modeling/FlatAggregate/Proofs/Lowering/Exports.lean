import FlatAggregate.Proofs.Lowering.Written
import FlatAggregate.Proofs.Plan.Exposure

/-!
# What inline queries export

Each level of a statement stands for a select: the statement itself for the outermost one, and the
inline queries in it for the operands of that select (`Statement.lowered`). A level exports the
columns of its select, one item for each, under the aliases of these columns, whether the item gets
its alias here or shows a column of an inline query that bears it already.

`Statement.lowered`, `Source.lowered` and `Join.lowered` list the levels together with their
selects, by recursion on the statement.
-/

namespace FlatAggregate

variable {T C : Type}

mutual

/-- The levels of a statement with the selects for which they stand: the statement itself with the
given select, and the inline queries in it with the operands of that select, in turn. -/
def Statement.lowered (plan : Plan T C) : Statement → SelectId → List (Statement × SelectId)
  | ⟨items, source, joins, orderBy⟩, select =>
    (⟨items, source, joins, orderBy⟩, select) ::
      match plan.operandsOf select with
      | [] => []
      | first :: rest => source.lowered plan first ++ Join.lowered plan joins rest

def Source.lowered (plan : Plan T C) : Source → SelectId → List (Statement × SelectId)
  | .table _ _, _ => []
  | .subquery query _, select => query.lowered plan select

def Join.lowered (plan : Plan T C) : List Join → List SelectId → List (Statement × SelectId)
  | ⟨source, _, _⟩ :: rest, select :: selects =>
    source.lowered plan select ++ Join.lowered plan rest selects
  | _, _ => []

end

section Levels

variable [DecidableEq T] [DecidableEq C] {names : NameSource T C} {plan : Plan T C}
  {book : AliasBook T C}

mutual

/-- All levels of a written statement are lowered, each of them written for its select. -/
theorem Statement.Written.lowered {statement : Statement} {select : SelectId}
    (h : statement.Written names plan book select) :
    (statement.lowered plan select).map Prod.fst = statement.levels ∧
      ∀ level ∈ statement.lowered plan select, level.1.Written names plan book level.2 := by
  cases h with
  | scan hselect hsource hitems =>
      have hoperands : plan.operandsOf select = [] := by rw [Plan.operandsOf, hselect]
      obtain ⟨name, hsourceEq, -⟩ := hsource.exists_table rfl (by rw [Plan.scanAt, hselect])
      rw [hsourceEq] at hsource ⊢
      simp only [Statement.lowered, hoperands, Statement.levels, Source.levels, Join.levels]
      exact ⟨rfl, by simpa using .scan hselect hsource hitems⟩
  | @view _ table _ source _ _ _ hselect hsource hitems =>
      have hoperands : plan.operandsOf select = [table] := by rw [Plan.operandsOf, hselect]
      obtain ⟨hlevels, hwritten⟩ := hsource.lowered
      simp only [Statement.lowered, hoperands, Statement.levels, Join.lowered, Join.levels,
        List.append_nil, List.map_cons, hlevels, List.forall_mem_cons,
        true_and]
      exact ⟨.view hselect hsource hitems, hwritten⟩
  | @join _ join parent child _ _ _ _ _ hselect hparent hchild hconditions hitems =>
      have hoperands : plan.operandsOf select = [join.parent, join.child] := by
        rw [Plan.operandsOf, hselect]
      obtain ⟨hlevels, hwritten⟩ := hparent.lowered
      obtain ⟨hlevels', hwritten'⟩ := hchild.lowered
      simp only [Statement.lowered, hoperands, Statement.levels, Join.lowered, Join.levels,
        List.append_nil, List.map_cons, List.map_append, hlevels, hlevels', List.forall_mem_cons,
        List.forall_mem_append, true_and]
      exact ⟨.join hselect hparent hchild hconditions hitems, hwritten, hwritten'⟩

theorem Source.Written.lowered {side : Side} {source : Source} {select : SelectId} {scope : Scope}
    (h : source.Written names plan book side select scope) :
    (source.lowered plan select).map Prod.fst = source.levels ∧
      ∀ level ∈ source.lowered plan select, level.1.Written names plan book level.2 := by
  cases h with
  | table => exact ⟨rfl, by simp [Source.lowered]⟩
  | subquery _ hquery => exact hquery.lowered

end

mutual

theorem Statement.Written.orderBy_eq_nil {statement : Statement} {select : SelectId}
    (h : statement.Written names plan book select) :
    ∀ level ∈ statement.levels.tail, level.orderBy = [] := by
  cases h with
  | scan _ hsource _ =>
      simpa [Statement.levels, Join.levels] using hsource.orderBy_eq_nil
  | view _ hsource _ =>
      simpa [Statement.levels, Join.levels] using hsource.orderBy_eq_nil
  | join _ hparent hchild _ _ =>
      simp only [Statement.levels, Join.levels, List.append_nil, List.tail_cons,
        List.forall_mem_append]
      exact ⟨hparent.orderBy_eq_nil, hchild.orderBy_eq_nil⟩

theorem Source.Written.orderBy_eq_nil {side : Side} {source : Source} {select : SelectId}
    {scope : Scope} (h : source.Written names plan book side select scope) :
    ∀ level ∈ source.levels, level.orderBy = [] := by
  cases h with
  | table => simp [Source.levels]
  | @subquery _ _ query _ _ _ hquery horder _ _ =>
      have htail := hquery.orderBy_eq_nil
      obtain ⟨items, source, joins, orderBy⟩ := query
      simp only [Statement.levels, List.tail_cons] at htail
      simp only [Source.levels, Statement.levels, List.forall_mem_cons]
      exact ⟨horder, htail⟩

end

theorem Statement.Written.eq_or_orderBy_eq_nil {statement level : Statement} {select : SelectId}
    (h : statement.Written names plan book select) (hlevel : level ∈ statement.levels) :
    level = statement ∨ level.orderBy = [] := by
  have htail := h.orderBy_eq_nil
  obtain ⟨items, source, joins, orderBy⟩ := statement
  rw [Statement.levels, List.tail_cons] at htail
  rw [Statement.levels] at hlevel
  exact (List.mem_cons.mp hlevel).imp_right (htail level)

theorem Statement.Written.exists_of_mem_levels {statement level : Statement} {select : SelectId}
    (h : statement.Written names plan book select) (hlevel : level ∈ statement.levels) :
    ∃ part, level.Written names plan book part := by
  obtain ⟨hlevels, hwritten⟩ := h.lowered
  rw [← hlevels] at hlevel
  obtain ⟨⟨_, part⟩, hmem, rfl⟩ := List.mem_map.mp hlevel
  exact ⟨part, hwritten _ hmem⟩

theorem Statement.Written.exports {statement : Statement} {select : SelectId}
    (h : statement.Written names plan book select) :
    List.Forall₂ (fun item column => ∃ name, item.outputName = some name ∧
      ((Aliasing.column names plan column).on book).1 = .ok name) statement.items
      (plan.columnsOf select) := by
  cases h with
  | scan _ _ hitems => exact hitems.imp fun _ _ hitem => hitem.2
  | view _ _ hitems => exact hitems.imp fun _ _ hitem => hitem.2
  | join _ _ _ _ hitems => exact hitems.imp fun _ _ hitem => hitem.2

end Levels

namespace Draft

variable [DecidableEq T] [DecidableEq C] [ToString T] {root : TableSpec T C}
  {additions : List (Addition T C)} {draft : Draft T C} {plan : Plan T C} {names : NameSource T C}

/-- Inline queries export just the columns that the level above expects. If the name source knows
the tables, then, whatever the settings, the query of an assembled aggregate has a statement; and
each of its levels, lowered from the outermost select or from an operand below, has one item for
each column of its select, in order, whose output name is the alias for which one gets asked
afterwards. -/
theorem exports_query (h : assemble root additions = .ok draft) (hplan : draft.plan = .ok plan)
    (hknows : names.Knows (root :: additions.map Addition.spec)) (settings : Settings) :
    ∃ statement book, (Lowering.query names plan).on { settings } = (.ok statement, book) ∧
      (statement.lowered plan plan.root).map Prod.fst = statement.levels ∧
      ∀ level ∈ statement.lowered plan plan.root,
        List.Forall₂ (fun item column => ∃ name, item.outputName = some name ∧
          ((Aliasing.column names plan column).on book).1 = .ok name) level.1.items
          (plan.columnsOf level.2) := by
  obtain ⟨top, hlaid, hroot, -, -⟩ := laid_of_assemble h hplan
  obtain ⟨statement, book, hstatement, -, hwritten, -⟩ := Lowering.exists_written hknows hlaid
    (specs_of_assemble h).subset hroot (AliasBook.issued_empty names plan settings)
  obtain ⟨hlevels, hlowered⟩ := hwritten.lowered
  exact ⟨statement, book, hstatement, hlevels, fun level hlevel => (hlowered level hlevel).exports⟩

/-- A root with a child and a grandchild, and a second child with a key. -/
theorem exports_query_siblings :
    let root : TableSpec Nat Nat := { table := 0, id := some 10, columns := [11] }
    let additions : List (Addition Nat Nat) :=
      [⟨0, .multiple, { table := 1, id := some 20 }⟩, ⟨1, .single, { table := 2, columns := [30] }⟩,
        ⟨0, .multiple, { table := 3, key := some 40 }⟩]
    let names : NameSource Nat Nat := .ofText
    ∃ (draft : Draft Nat Nat) (plan : Plan Nat Nat), assemble root additions = .ok draft ∧
      draft.plan = .ok plan ∧ names.Knows (root :: additions.map Addition.spec) ∧
      ∃ statement book, (Lowering.query names plan).on { settings := {} } = (.ok statement, book) ∧
        (statement.lowered plan plan.root).map Prod.fst = statement.levels ∧
        ∀ level ∈ statement.lowered plan plan.root,
          List.Forall₂ (fun item column => ∃ name, item.outputName = some name ∧
            ((Aliasing.column names plan column).on book).1 = .ok name) level.1.items
            (plan.columnsOf level.2) := by
  intro root additions names
  obtain ⟨draft, h⟩ : ∃ draft, assemble root additions = .ok draft := ⟨_, rfl⟩
  obtain ⟨-, plan, hplan⟩ := plan_of_assemble h
  have hknows : names.Knows (root :: additions.map Addition.spec) :=
    ⟨fun _ _ => ⟨_, rfl⟩, fun _ _ _ _ => ⟨_, rfl⟩⟩
  exact ⟨draft, plan, h, hplan, hknows, exports_query h hplan hknows {}⟩

end Draft

end FlatAggregate
