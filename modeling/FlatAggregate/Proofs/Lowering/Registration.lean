import FlatAggregate.Proofs.Alias.Numbering
import FlatAggregate.Proofs.Lowering.Programs

/-!
# The order in which tables are named

Tables get their aliases when they are read, and a join reads its parent side before its child side.
So lowering enters the tables of a join tree from left to right (`Lowering.registers_query`), and as
the keys of a kind are numbered in the order of their entries, the n-th table of the tree has the
n-th alias of a table.

`AliasBook.tables` lists the tables that have an alias, in the order of their entries. A program
`Registers` a list of tables if it enters just these, as long as they are new.
-/

namespace FlatAggregate

variable {T C α β : Type}

def AliasKey.table? : AliasKey T C → Option T
  | .table t => some t
  | _ => none

namespace AliasBook

def tables (book : AliasBook T C) : List T :=
  book.entries.filterMap fun entry => entry.1.table?

theorem tables_enter (book : AliasBook T C) (key : AliasKey T C) (aliasName : String) :
    (book.enter key aliasName).tables = book.tables ++ key.table?.toList := by
  rw [tables, enter, List.filterMap_append]
  cases key <;> rfl

theorem tables_issue (book : AliasBook T C) (kind : Alias.Kind) (name : String) :
    (book.issue kind name).2.tables = book.tables := rfl

section Numbers

variable [DecidableEq T] [DecidableEq C] {names : NameSource T C} {plan : Plan T C}
  {book : AliasBook T C} {settings : Settings} {table : T} {position : Nat}

theorem mem_tables_of_find? {aliasName : String}
    (h : book.find? (.table table) = some aliasName) : table ∈ book.tables := by
  obtain ⟨front, rest, heq, -⟩ := List.lookup_eq_some_iff.mp h
  rw [tables, heq, List.filterMap_append]
  simp [AliasKey.table?]

theorem exists_find?_of_mem {key : AliasKey T C} {aliasName : String}
    (h : (key, aliasName) ∈ book.entries) :
    ∃ given, book.find? key = some given ∧ (key, given) ∈ book.entries := by
  have hsome : (book.find? key).isSome := by
    rw [find?, List.lookup_isSome_iff]
    exact ⟨_, h, by simp⟩
  obtain ⟨given, hgiven⟩ := Option.isSome_iff_exists.mp hsome
  obtain ⟨front, rest, heq, -⟩ := List.lookup_eq_some_iff.mp hgiven
  exact ⟨given, hgiven, heq ▸ List.mem_append_right _ List.mem_cons_self⟩

omit [DecidableEq T] [DecidableEq C] in
theorem isSome_table?_of_issued? {key : AliasKey T C}
    (h : (plan.issued? names key).map Prod.fst = some .table) : key.table?.isSome := by
  cases key with
  | table table => rfl
  | token token => simp [Plan.issued?] at h
  | select select =>
      rw [Plan.issued?] at h
      split at h <;> simp at h
  | column column =>
      rw [Plan.issued?] at h
      split at h <;> simp at h

theorem Issued.map_entriesOf_table (h : book.Issued names plan) :
    (book.entriesOf names plan .table).map (fun entry => entry.1.table?) =
      book.tables.map some := by
  rw [tables, List.map_filterMap_some_eq_filter_map_isSome, List.filter_map, entriesOf]
  refine congrArg _ (List.filter_congr fun entry hentry => ?_)
  obtain ⟨key, aliasName⟩ := entry
  obtain ⟨given, hgiven, -⟩ := exists_find?_of_mem hentry
  have hrefusal := h.refusal_eq_none key given hgiven
  rw [Bool.eq_iff_iff, decide_eq_true_iff]
  constructor
  · exact isSome_table?_of_issued?
  · intro hsome
    cases key with
    | table table =>
        rw [Plan.refusal] at hrefusal
        cases hname : names.tableName table with
        | ok name => simp [Plan.issued?, hname, Except.toOption]
        | error error =>
            rw [hname] at hrefusal
            cases hrefusal
    | _ => cases hsome

/-- The n-th table of a book has the n-th entry that is numbered as a table. -/
theorem Issued.getElem?_tables_iff (h : book.Issued names plan) :
    book.tables[position]? = some table ↔
      ∃ text, (book.entriesOf names plan .table)[position]? = some (.table table, text) := by
  have hget := congrArg (·[position]?) h.map_entriesOf_table
  simp only [List.getElem?_map] at hget
  constructor
  · intro htable
    rw [htable, Option.map_some] at hget
    obtain ⟨⟨key, text⟩, hentry, hkey⟩ := Option.map_eq_some_iff.mp hget
    cases key with
    | table t =>
        obtain rfl := Option.some.inj hkey
        exact ⟨text, hentry⟩
    | _ => cases hkey
  · rintro ⟨text, hentry⟩
    rw [hentry, Option.map_some] at hget
    obtain ⟨t, ht, heq⟩ := Option.map_eq_some_iff.mp hget.symm
    rw [ht, heq]
    rfl

theorem Numbered.find?_table (h : book.Numbered names plan settings)
    (hissued : book.Issued names plan) (hnodup : book.tables.Nodup)
    (htable : book.tables[position]? = some table) :
    ∃ name, names.tableName table = .ok name ∧
      book.find? (.table table) = some (settings.aliasText .table (position + 1) name) := by
  obtain ⟨text, hentry⟩ := hissued.getElem?_tables_iff.mp htable
  obtain ⟨name, hkey, rfl⟩ := h.text_eq .table position _ text hentry
  have hname : names.tableName table = .ok name := by
    rw [Plan.issued?] at hkey
    cases hresult : names.tableName table with
    | ok given =>
        rw [hresult] at hkey
        rw [(Prod.mk.inj (Option.some.inj hkey)).2]
    | error error =>
        rw [hresult] at hkey
        cases hkey
  have hmem := List.mem_of_getElem? hentry
  obtain ⟨given, hfind, hgiven⟩ := exists_find?_of_mem (List.mem_filter.mp hmem).1
  -- the entry that is found is the one at that position, for no table is entered twice
  have hgivenOf : (.table table, given) ∈ book.entriesOf names plan .table :=
    List.mem_filter.mpr ⟨hgiven, (List.mem_filter.mp hmem).2⟩
  obtain ⟨place, hplace⟩ := List.mem_iff_getElem?.mp hgivenOf
  have htable' := hissued.getElem?_tables_iff.mpr ⟨given, hplace⟩
  have hlt := (List.getElem?_eq_some_iff.mp htable).1
  obtain rfl : position = place :=
    (List.getElem?_inj hlt hnodup).mp (htable.trans htable'.symm)
  obtain ⟨-, rfl⟩ := Prod.mk.inj (Option.some.inj (hplace.symm.trans hentry))
  exact ⟨name, hname, hfind⟩

end Numbers

end AliasBook

theorem Plan.Laid.scanAt_child {plan : Plan T C} {tree : JoinTree T C} {incoming : List ColumnId}
    {first last : Mark} {operand : Operand}
    (h : plan.Laid .child tree incoming first last operand) :
    plan.scanAt operand.select = none := by
  cases h with
  | view _ hview => rw [Plan.scanAt, TableScan.viewOperand, hview]
  | join _ _ _ hjoin => rw [Plan.scanAt, PlanJoin.operand, hjoin.select]

namespace Aliasing

variable [DecidableEq T] [DecidableEq C] {names : NameSource T C} {plan : Plan T C}
  {m : Aliasing T C α} {f : α → Aliasing T C β} {tables tables' : List T}

/-- A program that succeeds enters the tables of a list, if they are new and differ. -/
def Registers (names : NameSource T C) (plan : Plan T C) (tables : List T) (m : Aliasing T C α) :
    Prop :=
  ∀ book x later, book.Issued names plan → (book.tables ++ tables).Nodup →
    m.on book = (.ok x, later) → later.tables = book.tables ++ tables

theorem Registers.bind (h : Registers names plan tables m) (hm : Asks names plan m)
    (hf : ∀ x, Registers names plan tables' (f x)) :
    Registers names plan (tables ++ tables') (m >>= f) := by
  intro book y later hbook hnodup hon
  rw [← List.append_assoc] at hnodup ⊢
  rw [on_bind] at hon
  cases hfirst : m.on book with
  | mk result middle =>
    have hmiddle := (hm.leads hbook).issued
    rw [hfirst] at hon hmiddle
    cases result with
    | error error => cases hon
    | ok x =>
        have htables := h book x middle hbook hnodup.of_append_left hfirst
        rw [← htables] at hnodup ⊢
        exact hf x middle y later hmiddle hnodup hon

theorem registers_nil (h : ∀ known, Keeps (fun book => book.tables = known) m) :
    Registers names plan [] m := by
  intro book x later _ _ hon
  rw [List.append_nil]
  have hkept := h book.tables book rfl
  rwa [hon] at hkept

theorem registers_pure (x : α) : Registers names plan [] (pure x : Aliasing T C α) :=
  registers_nil fun _ _ hbook => hbook

theorem registers_lift (result : Except NamingError α) :
    Registers names plan [] (liftM result : Aliasing T C α) :=
  registers_nil fun _ => keeps_lift result

theorem registers_mapM {f : β → Aliasing T C α} {items : List β}
    (hf : ∀ item, Asks names plan (f item)) (h : ∀ item, Registers names plan [] (f item)) :
    Registers names plan [] (items.mapM f) := by
  induction items with
  | nil =>
      rw [List.mapM_nil]
      exact registers_pure []
  | cons item items ih =>
      rw [List.mapM_cons]
      exact (h item).bind (hf item) fun _ => ih.bind (Asks.mapM hf) fun _ => registers_pure _

omit [DecidableEq T] [DecidableEq C] in
theorem tables_of_step {book later : AliasBook T C} {key : AliasKey T C} (hkey : key.table? = none)
    (hstep : AliasBook.Step names plan book key later) : later.tables = book.tables := by
  cases hstep with
  | delegated => rw [AliasBook.tables_enter, hkey, Option.toList_none, List.append_nil]
  | issued =>
      rw [AliasBook.tables_enter, hkey, Option.toList_none, List.append_nil,
        AliasBook.tables_issue]

theorem registers_column (column : ColumnId) :
    Registers names plan [] (Aliasing.column names plan column) :=
  registers_nil fun _ => keeps_column
    (fun _ _ _ hkey hstep hbook => (tables_of_step hkey hstep).trans hbook)
    (fun _ => rfl) (fun _ => rfl) column

theorem registers_select {select : SelectId} (h : plan.scanAt select = none) :
    Registers names plan [] (Aliasing.select names plan select) :=
  registers_nil fun _ => keeps_select
    (fun _ _ _ hkey hstep hbook => (tables_of_step hkey hstep).trans hbook)
    rfl fun scan hscan => by simp [h] at hscan

theorem exists_of_memo_ok {key : AliasKey T C} {make : Aliasing T C String}
    {book later : AliasBook T C} {aliasName : String} (h : book.find? key = none)
    (hon : (memo key make).on book = (.ok aliasName, later)) :
    ∃ middle, make.on book = (.ok aliasName, middle) ∧ later = middle.enter key aliasName := by
  cases hmake : make.on book with
  | mk result middle =>
    cases result with
    | error error =>
        rw [memo, on_bind_ok (on_get book)] at hon
        simp only [h] at hon
        rw [on_bind_error hmake] at hon
        cases hon
    | ok given =>
        rw [memo_of_find?_none h hmake] at hon
        obtain ⟨hgiven, rfl⟩ := Prod.mk.inj hon
        obtain rfl := Except.ok.inj hgiven
        exact ⟨middle, rfl, rfl⟩

theorem find?_table_eq_none {book : AliasBook T C} {table : T}
    (h : (book.tables ++ [table]).Nodup) : book.find? (.table table) = none := by
  cases hfind : book.find? (.table table) with
  | none => rfl
  | some aliasName =>
      have hmem := AliasBook.mem_tables_of_find? hfind
      exact absurd rfl ((List.nodup_append.mp h).2.2 table hmem table (List.mem_singleton_self _))

theorem registers_table (table : T) :
    Registers names plan [table] (Aliasing.table names table) := by
  intro book x later hbook hnodup hon
  obtain ⟨middle, hmake, rfl⟩ := exists_of_memo_ok (find?_table_eq_none hnodup) hon
  have hmiddle : middle.tables = book.tables := by
    cases hname : names.tableName table with
    | error error =>
        rw [hname] at hmake
        cases hmake
    | ok name =>
        rw [hname, lift_ok_bind, on_issue] at hmake
        rw [← (Prod.mk.inj hmake).2, AliasBook.tables_issue]
  rw [AliasBook.tables_enter, hmiddle]
  rfl

theorem registers_select_scan {select : SelectId} {scan : TableScan T}
    (h : plan.selects[select]? = some (.scan scan)) :
    Registers names plan [scan.table] (Aliasing.select names plan select) := by
  intro book x later hbook hnodup hon
  have hnone : book.find? (.select select) = none := by
    cases hfind : book.find? (.select select) with
    | none => rfl
    | some aliasName =>
        have hshared := hbook.shared _ _ hfind
        rw [Plan.ownKey, h, find?_table_eq_none hnodup] at hshared
        cases hshared
  rw [Aliasing.select, h] at hon
  obtain ⟨middle, hmake, rfl⟩ := exists_of_memo_ok hnone hon
  rw [AliasBook.tables_enter, registers_table scan.table book x middle hbook hnodup hmake]
  exact List.append_nil _

end Aliasing

namespace Lowering

open Aliasing

variable [DecidableEq T] [DecidableEq C] (names : NameSource T C) (plan : Plan T C)

theorem registers_selectItem (scope : Scope) (column : ColumnId) :
    Registers names plan [] (selectItem names plan scope column) := by
  rw [selectItem]
  split
  · exact registers_pure _
  · exact (registers_lift _).bind (Asks.lift _) fun _ =>
      (registers_column column).bind (Asks.column column) fun _ => registers_pure _

theorem registers_selectItems (scope : Scope) (columns : List ColumnId) :
    Registers names plan [] (selectItems names plan scope columns) :=
  registers_mapM (asks_selectItem names plan scope) (registers_selectItem names plan scope)

theorem registers_tableLevel (columns : List ColumnId) (source : Source × Scope) :
    Registers names plan [] (tableLevel names plan columns source) :=
  (registers_selectItems names plan _ _).bind (asks_selectItems names plan _ _) fun _ =>
    registers_pure _

theorem registers_joinLevel (join : PlanJoin) (parent child : Source × Scope) :
    Registers names plan [] (joinLevel names plan join parent child) :=
  (registers_lift _).bind (Asks.lift _) fun _ =>
    (registers_selectItems names plan _ _).bind (asks_selectItems names plan _ _) fun _ =>
      registers_pure _

theorem registers_ordered (result : Statement) :
    Registers names plan [] (ordered names plan result) := by
  have hitem : ∀ column, Registers names plan [] (orderItem names plan column) := fun column =>
    (registers_column column).bind (Asks.column column) fun _ => registers_pure _
  rw [ordered]
  split
  · exact (registers_mapM (asks_orderItem names plan) hitem).bind
      (Asks.mapM (asks_orderItem names plan)) fun _ => registers_pure _
  · exact registers_pure _

section Trees

variable {names plan} {side : Side} {tree : JoinTree T C} {incoming : List ColumnId}
  {first last : Mark} {operand : Operand} {next : Nat} {scan : TableScan T} {spec : TableSpec T C}

theorem registers_tableSource (hscan : plan.HasScan spec incoming first next scan) :
    Registers names plan [spec.table] (tableSource names plan first.select scan) := by
  rw [← hscan.table]
  exact (registers_select_scan hscan.select).bind (Asks.select first.select) fun _ =>
    (registers_lift _).bind (Asks.lift _) fun _ => (registers_lift _).bind (Asks.lift _) fun _ =>
      registers_pure _

theorem registers_queriedSource {select : SelectId} {tables : List T}
    (hselect : plan.scanAt select = none)
    (h : Registers names plan tables (statement names plan select)) :
    Registers names plan tables (queriedSource names plan select) := by
  have hshown : ∀ aliasName column,
      Registers names plan [] (shownColumn names plan aliasName column) := fun _ column =>
    (registers_column column).bind (Asks.column column) fun _ => registers_pure _
  have hsource : ∀ query, Registers names plan [] (subquerySource names plan select query) :=
    fun _ => (registers_select hselect).bind (Asks.select select) fun aliasName =>
      (registers_mapM (asks_shownColumn names plan aliasName) (hshown aliasName)).bind
        (Asks.mapM (asks_shownColumn names plan aliasName)) fun _ => registers_pure _
  rw [← List.append_nil tables]
  exact h.bind (asks_statement names plan select) hsource

theorem registers_parentSource (h : plan.Laid .parent tree incoming first last operand)
    (hstatement : Registers names plan tree.tables (statement names plan operand.select)) :
    Registers names plan tree.tables (parentSource names plan operand.select) := by
  cases h with
  | scan hscan =>
      rw [TableScan.operand, parentSource_table names hscan]
      exact registers_tableSource hscan
  | join _ _ _ hjoin =>
      rw [PlanJoin.operand] at hstatement ⊢
      rw [parentSource_join names hjoin]
      exact registers_queriedSource (by rw [Plan.scanAt, hjoin.select]) hstatement

/-- The statement of a select enters the tables of its tree from left to right. -/
theorem registers_statement (h : plan.Laid side tree incoming first last operand) :
    Registers names plan tree.tables (statement names plan operand.select) := by
  induction h with
  | @scan spec _ _ _ _ hscan =>
      rw [TableScan.operand, statement_scan names hscan]
      exact (registers_tableSource hscan).bind (asks_tableSource names plan _ _)
        (registers_tableLevel names plan _)
  | view hscan hview =>
      rw [TableScan.viewOperand, statement_view names hscan hview]
      exact (registers_tableSource hscan).bind (asks_tableSource names plan _ _)
        (registers_tableLevel names plan _)
  | @join side left right _ _ _ _ last _ parent child _ _ join hparent hid hchild hjoin ihp ihc =>
      have hrest : ∀ x, Registers names plan (right.tables ++ [])
          (queriedSource names plan child.select >>= fun y => joinLevel names plan join x y) :=
        fun x => (registers_queriedSource hchild.scanAt_child ihc).bind
          (asks_queriedSource names plan _) (registers_joinLevel names plan join x)
      rw [PlanJoin.operand, statement_join names hparent hchild hjoin, JoinTree.tables_join,
        ← List.append_nil right.tables]
      exact (registers_parentSource hparent ihp).bind (asks_parentSource names plan _) hrest

/-- The query of a plan enters the tables of its tree from left to right. -/
theorem registers_query (h : plan.Laid side tree incoming first last operand)
    (hroot : plan.root = operand.select) :
    Registers names plan tree.tables (query names plan) := by
  have hstatement : Registers names plan tree.tables (statement names plan plan.root) :=
    hroot ▸ registers_statement h
  rw [← List.append_nil tree.tables]
  exact hstatement.bind (asks_statement names plan _) (registers_ordered names plan)

end Trees

end Lowering

end FlatAggregate
