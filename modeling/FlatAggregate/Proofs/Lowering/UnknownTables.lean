import FlatAggregate.Proofs.Lowering.OutputNames
import FlatAggregate.Proofs.Lowering.TotalNames

/-!
# Unknown tables

A plan is lowered from left to right: all that a join asks for on its parent side comes before
anything of its child side. So if a name source lacks a table, the query fails with what the source
says about the first such table (`Lowering.fails_query`), however many aliases there are already.
-/

namespace FlatAggregate

variable {T C α β : Type}

/-- A name source that answers with an error whatever it is asked about a table. -/
structure NameSource.Lacks (names : NameSource T C) (table : T) (error : NamingError) : Prop where
  tableName : names.tableName table = .error error
  foreignKeyName : ∀ token, names.foreignKeyName table token = .error error

theorem of_bind_eq_error {E A B : Type} {x : Except E A} {f : A → Except E B} {error : E}
    (h : x >>= f = .error error) : x = .error error ∨ ∃ a, x = .ok a ∧ f a = .error error := by
  cases x with
  | error error' => exact .inl (congrArg _ (Except.error.inj h))
  | ok a => exact .inr ⟨a, rfl, h⟩

theorem exists_of_mapM_eq_error {E A B : Type} {f : A → Except E B} {items : List A} {error : E}
    (h : items.mapM f = .error error) : ∃ item ∈ items, f item = .error error := by
  induction items with
  | nil => cases h
  | cons item items ih =>
      rw [List.mapM_cons] at h
      rcases of_bind_eq_error h with hitem | ⟨_, -, h⟩
      · exact ⟨item, List.mem_cons_self, hitem⟩
      rcases of_bind_eq_error h with hitems | ⟨_, -, h⟩
      · obtain ⟨other, ho, hother⟩ := ih hitems
        exact ⟨other, List.mem_cons_of_mem _ ho, hother⟩
      · cases h

namespace Aliasing

variable [DecidableEq T] [DecidableEq C] {plan : Plan T C} {error : NamingError}
  {m : Aliasing T C α} {f : α → Aliasing T C β}

def Fails (plan : Plan T C) (error : NamingError) (m : Aliasing T C α) : Prop :=
  ∀ book, book.Sound plan → (m.on book).1 = .error error

theorem Fails.bind (h : Fails plan error m) (f : α → Aliasing T C β) :
    Fails plan error (m >>= f) := by
  intro book hbook
  have hm := h book hbook
  rw [on_bind]
  split
  · rename_i heq
    rw [heq] at hm
    cases hm
  · rename_i heq
    rw [heq] at hm
    exact congrArg Except.error (Except.error.inj hm)

theorem Succeeds.bind_fails (h : Succeeds plan m) (hf : ∀ x, Fails plan error (f x)) :
    Fails plan error (m >>= f) := by
  intro book hbook
  obtain ⟨x, later, hx, hlater⟩ := h book hbook
  rw [on_bind_ok hx]
  exact hf x later hlater

/-- A key for which there is an error has none in the book, and none can be made. -/
theorem eq_error_of_memo {key : AliasKey T C} {make : Aliasing T C String}
    {book : AliasBook T C} (h : ((memo key make).on book).1 = .error error) :
    (make.on book).1 = .error error := by
  rw [memo, on_bind_ok (on_get book)] at h
  cases hfind : book.find? key with
  | some aliasName => simp [hfind] at h
  | none =>
      simp only [hfind] at h
      rw [on_bind] at h
      split at h
      · cases h
      · rename_i heq
        rw [heq]
        exact h

/-- No other error stands in the way of the alias of a table that the source lacks. -/
theorem eq_of_select_eq_error {names : NameSource T C} {select : SelectId} {scan : TableScan T}
    (hscan : plan.selects[select]? = some (.scan scan)) (hlacks : names.Lacks scan.table error)
    {book : AliasBook T C} {error' : NamingError}
    (h : ((Aliasing.select names plan select).on book).1 = .error error') : error' = error := by
  rw [Aliasing.select, hscan] at h
  have htable := eq_error_of_memo (eq_error_of_memo h)
  rw [hlacks.tableName, on_bind, on_lift] at htable
  exact (Except.error.inj htable).symm

end Aliasing

namespace Lowering

open Aliasing

variable {names : NameSource T C} {plan : Plan T C} {error : NamingError}
  {specs : List (TableSpec T C)} {incoming : List ColumnId} {first last : Mark}

section Tables

variable {spec : TableSpec T C} {next : Nat} {scan : TableScan T}
  (h : plan.HasScan spec incoming first next scan) (hincoming : plan.Incoming specs first incoming)

include h hincoming

/-- No other error stands in the way of the columns of a table that the source lacks. -/
theorem eq_of_storedColumn_eq_error (hlacks : names.Lacks scan.table error) {column : ColumnId}
    (hc : column ∈ scan.allColumns) {error' : NamingError}
    (herror : storedColumn names plan column = .error error') :
    error' = error := by
  rcases h.stored hc with ⟨token, -, heq⟩ | ⟨references, hmem, -, heq⟩
  · rw [storedColumn, heq] at herror
    cases herror
  · obtain ⟨hlt, hsource⟩ := hincoming references hmem
    obtain ⟨token, -, htoken⟩ := hsource.foreignKey heq (Nat.lt_of_lt_of_le hlt (h.mem_range hc).1)
    have htable : plan.tableOf first.select = some scan.table := by rw [Plan.tableOf, h.select]
    rw [storedColumn, heq] at herror
    simp only [NameSource.storedName, htoken, htable, hlacks.foreignKeyName] at herror
    exact (Except.error.inj herror).symm

theorem eq_of_tableScope_eq_error (hlacks : names.Lacks scan.table error) {aliasName : String}
    {error' : NamingError}
    (herror : tableScope names plan aliasName scan.allColumns = .error error') :
    error' = error := by
  rw [tableScope] at herror
  rcases of_bind_eq_error herror with hstored | ⟨_, -, hshown⟩
  · obtain ⟨column, hc, hcolumn⟩ := exists_of_mapM_eq_error hstored
    rcases of_bind_eq_error hcolumn with hname | ⟨_, -, hentry⟩
    · exact eq_of_storedColumn_eq_error h hincoming hlacks hc hname
    · cases hentry
  · cases hshown

theorem fails_tableSource [DecidableEq T] [DecidableEq C] (hlacks : names.Lacks spec.table error) :
    Fails plan error (tableSource names plan first.select scan) := by
  intro book _
  rw [← h.table] at hlacks
  rw [tableSource, on_bind]
  split
  · rename_i aliasName later _
    rw [on_bind, on_lift]
    cases hscope : tableScope names plan aliasName scan.allColumns with
    | ok scope =>
        dsimp only
        rw [on_bind, on_lift, hlacks.tableName]
    | error error' =>
        rw [eq_of_tableScope_eq_error h hincoming hlacks hscope]
  · rename_i error' later heq
    rw [eq_of_select_eq_error h.select hlacks (congrArg Prod.fst heq)]

end Tables

section Trees

variable [DecidableEq T] [DecidableEq C] {side : Side} {tree : JoinTree T C} {operand : Operand}

/-- The parent side of a join fails with its statement, also if it is a bare table. -/
theorem fails_parentSource (h : plan.Laid .parent tree incoming first last operand)
    (hincoming : plan.Incoming specs first incoming) {late : TableSpec T C}
    (hlate : late ∈ tree.specs) (hlacks : names.Lacks late.table error)
    (hfails : Fails plan error (statement names plan operand.select)) :
    Fails plan error (parentSource names plan operand.select) := by
  cases h with
  | scan hscan =>
      obtain rfl := List.mem_singleton.mp hlate
      rw [TableScan.operand, parentSource_table names hscan]
      exact fails_tableSource hscan hincoming hlacks
  | join _ _ _ hjoin =>
      rw [PlanJoin.operand, parentSource_join names hjoin]
      exact hfails.bind _

variable {whole : JoinTree T C} {top : Operand} (hknows : names.Knows specs)
  (hplan : plan.Laid .parent whole [] ⟨0, 0⟩ plan.parts.mark top)

include hknows hplan

/-- The first table of a part that the source lacks makes the part fail. -/
theorem fails_statement (h : plan.Laid side tree incoming first last operand)
    (hincoming : plan.Incoming specs first incoming) {lacking : TableSpec T C → Bool}
    {late : TableSpec T C} (hlate : tree.specs.find? lacking = some late)
    (hothers : ∀ spec ∈ tree.specs, ¬ lacking spec → spec ∈ specs)
    (hlacks : names.Lacks late.table error) :
    Fails plan error (statement names plan operand.select) := by
  induction h with
  | @scan spec incoming first next scan hscan =>
      obtain rfl := List.mem_singleton.mp (List.mem_of_find?_eq_some hlate)
      rw [TableScan.operand, statement_scan names hscan]
      exact (fails_tableSource hscan hincoming hlacks).bind _
  | @view spec incoming first next scan hscan hview hrowNumber =>
      obtain rfl := List.mem_singleton.mp (List.mem_of_find?_eq_some hlate)
      rw [TableScan.viewOperand, statement_view names hscan hview]
      exact (fails_tableSource hscan hincoming hlacks).bind _
  | @join side left right incoming shown first middle last next parent child multiplicity owner join
      hparent _ hchild hjoin ihp ihc =>
      rw [JoinTree.specs] at hothers
      rw [JoinTree.specs, List.find?_append, Option.or_eq_some_iff] at hlate
      rw [PlanJoin.operand, statement_join names hparent hchild hjoin]
      rcases hlate with hleft | ⟨hnone, hright⟩
      · have hfails := ihp hincoming hleft fun spec hspec =>
          hothers spec (List.mem_append_left _ hspec)
        exact (fails_parentSource hparent hincoming (List.mem_of_find?_eq_some hleft) hlacks
          hfails).bind _
      · -- nothing is lacking on the parent side, so lowering gets to the child side
        have hknown : left.specs ⊆ specs := fun spec hspec =>
          hothers spec (List.mem_append_left _ hspec) (List.find?_eq_none.mp hnone spec hspec)
        have hfails := ihc (hparent.incoming_id hknown hincoming) hright fun spec hspec =>
          hothers spec (List.mem_append_right _ hspec)
        exact (succeeds_parentSource hknows hplan hparent hknown hincoming).bind_fails fun _ =>
          (hfails.bind _).bind _

/-- The first table of a plan that the source lacks makes the query fail. -/
theorem fails_query (hroot : plan.root = top.select) {lacking : TableSpec T C → Bool}
    {late : TableSpec T C} (hlate : whole.specs.find? lacking = some late)
    (hothers : ∀ spec ∈ whole.specs, ¬ lacking spec → spec ∈ specs)
    (hlacks : names.Lacks late.table error) : Fails plan error (query names plan) := by
  rw [query, hroot]
  exact (fails_statement hknows hplan hplan (plan.incoming_nil specs _) hlate hothers hlacks).bind _

end Trees

end Lowering

namespace Draft

variable [DecidableEq T] [DecidableEq C] [ToString T] {root : TableSpec T C}
  {additions : List (Addition T C)} {draft : Draft T C} {plan : Plan T C} {names : NameSource T C}

/-- Whatever the settings, the query of an assembled aggregate has a statement if the name source
knows all tables. -/
theorem exists_query_of_knows (h : assemble root additions = .ok draft)
    (hplan : draft.plan = .ok plan) (hknows : names.Knows (root :: additions.map Addition.spec))
    (settings : Settings) :
    ∃ statement, ((Lowering.query names plan).on { settings }).1 = .ok statement := by
  obtain ⟨statement, book, hstatement, -⟩ := exists_query_nodup_iff h hplan hknows settings
  exact ⟨statement, congrArg Prod.fst hstatement⟩

/-- If the name source lacks tables, the query of an assembled aggregate fails with what the source
says about the first of them in the join tree. -/
theorem query_eq_error (h : assemble root additions = .ok draft) (hplan : draft.plan = .ok plan)
    {lacking : TableSpec T C → Bool} {late : TableSpec T C} {error : NamingError}
    (hlate : (AggregateTree.ofAdditions root additions).joinTree.specs.find? lacking = some late)
    (hlacks : names.Lacks late.table error)
    (hknows : names.Knows
      ((AggregateTree.ofAdditions root additions).joinTree.specs.filter (¬ lacking ·)))
    (settings : Settings) :
    ((Lowering.query names plan).on { settings }).1 = .error error := by
  obtain ⟨top, hlaid, hroot, -, -⟩ := laid_of_assemble h hplan
  refine Lowering.fails_query hknows hlaid hroot hlate (fun spec hspec hnot => ?_) hlacks _
    (AliasBook.sound_empty plan settings)
  exact List.mem_filter.mpr ⟨hspec, by simpa using hnot⟩

end Draft

end FlatAggregate
