import FlatAggregate.Proofs.Alias.Entries
import FlatAggregate.Proofs.Plan.Layout

/-!
# Asking for aliases

A computation that asks for aliases may be run again with any later book, and then it gives the same
result and leaves the book as it is (`Aliasing.Settles`). So a result can be studied with a book in
which all aliases of a plan are entered already, where asking is looking up.

`Finds` is the case of one key: the alias is the one that the book has for it, or the one that is
entered now. Not every column has an alias; `Plan.Named` says which ones do.
-/

namespace FlatAggregate

variable {T C α β : Type}

/-- Programs that agree on all items of a list give the same results for it. -/
theorem mapM_congr_left {m : Type → Type} [Monad m] [LawfulMonad m] {f g : α → m β}
    {items : List α} (h : ∀ item ∈ items, f item = g item) : items.mapM f = items.mapM g := by
  induction items with
  | nil => rw [List.mapM_nil, List.mapM_nil]
  | cons item items ih =>
      rw [List.mapM_cons, List.mapM_cons, h item List.mem_cons_self,
        ih fun other ho => h other (List.mem_cons_of_mem _ ho)]

namespace Aliasing

def on (m : Aliasing T C α) (book : AliasBook T C) : Except NamingError α × AliasBook T C :=
  m.run.run book

section Running

variable {m : Aliasing T C α} {f : α → Aliasing T C β} {book later : AliasBook T C}

@[simp] theorem on_pure (x : α) (book : AliasBook T C) :
    (pure x : Aliasing T C α).on book = (.ok x, book) := rfl

@[simp] theorem on_throw (error : NamingError) (book : AliasBook T C) :
    (throw error : Aliasing T C α).on book = (.error error, book) := rfl

@[simp] theorem on_lift (result : Except NamingError α) (book : AliasBook T C) :
    (liftM result : Aliasing T C α).on book = (result, book) := by
  cases result <;> rfl

theorem on_get (book : AliasBook T C) :
    (get : Aliasing T C (AliasBook T C)).on book = (.ok book, book) := rfl

theorem on_issue (kind : Alias.Kind) (name : String) (book : AliasBook T C) :
    (issue kind name : Aliasing T C String).on book =
      (.ok (book.issue kind name).1, (book.issue kind name).2) := rfl

theorem on_bind (m : Aliasing T C α) (f : α → Aliasing T C β) (book : AliasBook T C) :
    (m >>= f).on book =
      match m.on book with
      | (.ok x, later) => (f x).on later
      | (.error error, later) => (.error error, later) := by
  unfold on ExceptT.run StateT.run
  simp only [bind, ExceptT.bind, ExceptT.mk, StateT.bind, ExceptT.bindCont]
  cases m book with
  | mk result later => cases result <;> rfl

theorem on_bind_ok {x : α} (h : m.on book = (.ok x, later)) :
    (m >>= f).on book = (f x).on later := by
  rw [on_bind, h]

theorem lift_ok_bind (x : α) (f : α → Aliasing T C β) :
    ((liftM (.ok x : Except NamingError α) : Aliasing T C α) >>= f) = f x := rfl

theorem on_mapM {P : α → β → Prop} {items : List α}
    (h : ∀ item ∈ items, ∃ result, (f item).on book = (.ok result, book) ∧ P item result) :
    ∃ results, (items.mapM f).on book = (.ok results, book) ∧ List.Forall₂ P items results := by
  induction items with
  | nil => exact ⟨[], by rw [List.mapM_nil, on_pure], .nil⟩
  | cons item items ih =>
      obtain ⟨result, hresult, hp⟩ := h item List.mem_cons_self
      obtain ⟨results, hresults, hps⟩ := ih fun other ho => h other (List.mem_cons_of_mem _ ho)
      refine ⟨result :: results, ?_, .cons hp hps⟩
      rw [List.mapM_cons, on_bind_ok hresult, on_bind_ok hresults, on_pure]

theorem on_mapM_eq {g : α → β} {items : List α}
    (h : ∀ item ∈ items, (f item).on book = (.ok (g item), book)) :
    (items.mapM f).on book = (.ok (items.map g), book) := by
  induction items with
  | nil => rw [List.mapM_nil, on_pure, List.map_nil]
  | cons item items ih =>
      have hitems := ih fun other ho => h other (List.mem_cons_of_mem _ ho)
      rw [List.mapM_cons, on_bind_ok (h item List.mem_cons_self), on_bind_ok hitems, on_pure,
        List.map_cons]

end Running

variable [DecidableEq T] [DecidableEq C] {plan : Plan T C}

/-- A computation that keeps a book sound and only adds to it, and whose result does not change with
a later book. -/
def Settles (plan : Plan T C) (m : Aliasing T C α) : Prop :=
  ∀ book, book.Sound plan → (m.on book).2.Sound plan ∧ book.Extends (m.on book).2 ∧
    ∀ later, (m.on book).2.Extends later → m.on later = ((m.on book).1, later)

def Finds (plan : Plan T C) (key : AliasKey T C) (m : Aliasing T C String) : Prop :=
  ∀ book, book.Sound plan → ∃ aliasName later, m.on book = (.ok aliasName, later) ∧
    later.Sound plan ∧ book.Extends later ∧ later.find? key = some aliasName

section Settles

variable {m : Aliasing T C α} {f : α → Aliasing T C β}

theorem settles_pure (x : α) : Settles plan (pure x : Aliasing T C α) := fun book hbook =>
  ⟨hbook, .refl book, fun _ _ => rfl⟩

theorem settles_lift (result : Except NamingError α) :
    Settles plan (liftM result : Aliasing T C α) := fun book hbook => by
  rw [on_lift]
  exact ⟨hbook, .refl book, fun later _ => on_lift result later⟩

theorem Settles.bind (hm : Settles plan m) (hf : ∀ x, Settles plan (f x)) :
    Settles plan (m >>= f) := by
  intro book hbook
  obtain ⟨hsound, hextends, hagain⟩ := hm book hbook
  rw [on_bind]
  cases h : m.on book with
  | mk result later =>
    rw [h] at hsound hextends hagain
    cases result with
    | error error =>
        refine ⟨hsound, hextends, fun last hlast => ?_⟩
        rw [on_bind, hagain last hlast]
    | ok x =>
        obtain ⟨hsound', hextends', hagain'⟩ := hf x later hsound
        refine ⟨hsound', hextends.trans hextends', fun last hlast => ?_⟩
        rw [on_bind, hagain last (hextends'.trans hlast)]
        exact hagain' last hlast

theorem settles_mapM {f : α → Aliasing T C β} {items : List α}
    (h : ∀ item ∈ items, Settles plan (f item)) : Settles plan (items.mapM f) := by
  induction items with
  | nil =>
      rw [List.mapM_nil]
      exact settles_pure []
  | cons item items ih =>
      rw [List.mapM_cons]
      refine (h item List.mem_cons_self).bind fun x => ?_
      exact (ih fun other ho => h other (List.mem_cons_of_mem _ ho)).bind fun _ => settles_pure _

end Settles

section Memo

variable {key other : AliasKey T C} {make : Aliasing T C String} {book : AliasBook T C}

theorem memo_of_find? {aliasName : String} (h : book.find? key = some aliasName) :
    (memo key make).on book = (.ok aliasName, book) := by
  rw [memo, on_bind_ok (on_get book)]
  simp only [h, on_pure]

/-- A key without an alias is entered with the one that is made for it. -/
theorem memo_of_find?_none {aliasName : String} {later : AliasBook T C}
    (h : book.find? key = none) (hmake : make.on book = (.ok aliasName, later)) :
    (memo key make).on book = (.ok aliasName, later.enter key aliasName) := by
  rw [memo, on_bind_ok (on_get book)]
  simp only [h]
  rw [on_bind_ok hmake]
  rfl

theorem finds_memo_issue (hown : plan.ownKey key = key) (kind : Alias.Kind) (name : String) :
    Finds plan key (memo key (issue kind name)) := by
  intro book hbook
  cases h : book.find? key with
  | some aliasName => exact ⟨aliasName, book, memo_of_find? h, hbook, .refl book, h⟩
  | none =>
      refine ⟨_, _, memo_of_find?_none h (on_issue kind name book),
        hbook.enter_issued hown h kind name, ?_, AliasBook.find?_enter_self h⟩
      exact fun other aliasName hfind => AliasBook.extends_enter _ _ _ _ _ hfind

/-- A key may take the alias of a key that has the same own key. -/
theorem Finds.memo (h : Finds plan other make) (hown : plan.ownKey other = plan.ownKey key) :
    Finds plan key (memo key make) := by
  intro book hbook
  cases hfind : book.find? key with
  | some aliasName => exact ⟨aliasName, book, memo_of_find? hfind, hbook, .refl book, hfind⟩
  | none =>
      obtain ⟨aliasName, later, hmake, hsound, hextends, hother⟩ := h book hbook
      refine ⟨aliasName, _, memo_of_find?_none hfind hmake, hsound.enter_shared hother hown,
        hextends.trans (AliasBook.extends_enter later key aliasName), ?_⟩
      -- should `make` have entered the key already, then with the same alias
      cases hkey : later.find? key with
      | none => exact AliasBook.find?_enter_self hkey
      | some name =>
          rw [hsound.alias_eq hother hkey hown]
          exact AliasBook.extends_enter _ _ _ _ _ hkey

theorem Finds.settles (h : Finds plan key (Aliasing.memo key make)) :
    Settles plan (Aliasing.memo key make) := by
  intro book hbook
  obtain ⟨aliasName, later, hon, hsound, hextends, hfind⟩ := h book hbook
  rw [hon]
  exact ⟨hsound, hextends, fun last hlast => memo_of_find? (hlast key aliasName hfind)⟩

end Memo

end Aliasing

namespace Plan

variable {names : NameSource T C} {plan : Plan T C}

/-- A column has an alias: it is not a literal, the column that it shows again has one, and a
foreign key has a name. -/
inductive Named (names : NameSource T C) (plan : Plan T C) : ColumnId → Prop
  | base {column : ColumnId} {token : C} (h : plan.columns[column]? = some (.base token)) :
    Named names plan column
  | derived {column source : ColumnId} (h : plan.columns[column]? = some (.derived source))
      (hlt : source < column) (hsource : Named names plan source) : Named names plan column
  | foreignKey {column references : ColumnId} {owner : SelectId} {name : String}
      (h : plan.columns[column]? = some (.foreignKey references owner))
      (hname : names.storedName plan column owner = .ok name) : Named names plan column
  | rowNumber {column : ColumnId} {partitionBy : List ColumnId}
      (h : plan.columns[column]? = some (.rowNumber partitionBy)) : Named names plan column
  | greatest {column left right : ColumnId} {role : GreatestRole}
      (h : plan.columns[column]? = some (.greatest left right role)) : Named names plan column
  | maxOver {column source : ColumnId} {partitionBy : List ColumnId}
      (h : plan.columns[column]? = some (.maxOver source partitionBy)) : Named names plan column

namespace Named

variable {column : ColumnId}

theorem lt_size (h : plan.Named names column) : column < plan.columns.size := by
  cases h <;> exact (Array.getElem?_eq_some_iff.mp ‹_›).1

theorem canonical (h : plan.Named names column) : plan.Named names (plan.canonical column) := by
  induction h with
  | derived h hlt _ ih =>
      rw [Plan.canonical_of_derived h hlt]
      exact ih
  | base h =>
      rw [Plan.canonical_of_ne h (by simp)]
      exact .base h
  | foreignKey h hname =>
      rw [Plan.canonical_of_ne h (by simp)]
      exact .foreignKey h hname
  | rowNumber h =>
      rw [Plan.canonical_of_ne h (by simp)]
      exact .rowNumber h
  | greatest h =>
      rw [Plan.canonical_of_ne h (by simp)]
      exact .greatest h
  | maxOver h =>
      rw [Plan.canonical_of_ne h (by simp)]
      exact .maxOver h

end Named

end Plan

theorem Plan.ownKey_column {plan : Plan T C} {column : ColumnId} {definition : PlanColumn C}
    (h : plan.columns[column]? = some definition)
    (hderived : ∀ source, definition ≠ .derived source)
    (hbase : ∀ token, definition ≠ .base token) :
    plan.ownKey (.column column) = .column column := by
  rw [Plan.ownKey, Plan.canonical_of_ne h hderived, h]
  cases definition with
  | base token => exact absurd rfl (hbase token)
  | _ => rfl

namespace Aliasing

variable [DecidableEq T] [DecidableEq C] {names : NameSource T C} {plan : Plan T C}

theorem finds_table {table : T} {name : String} (h : names.tableName table = .ok name) :
    Finds plan (.table table) (Aliasing.table names table) := by
  rw [Aliasing.table, h]
  exact finds_memo_issue rfl .table name

theorem finds_token (token : C) :
    Finds plan (.token token) (Aliasing.token names token : Aliasing T C String) :=
  finds_memo_issue rfl .column _

theorem finds_column {column : ColumnId} (h : plan.Named names column) :
    Finds plan (.column column) (Aliasing.column names plan column) := by
  induction h with
  | @base column token h =>
      rw [Aliasing.column, h]
      refine (finds_token token).memo ?_
      rw [Plan.ownKey, Plan.ownKey, Plan.canonical_of_ne h (by simp), h]
  | @derived column source h hlt _ ih =>
      rw [Aliasing.column, h]
      simp only [earlier, dif_pos hlt]
      refine ih.memo ?_
      rw [Plan.ownKey, Plan.ownKey, Plan.canonical_of_derived h hlt]
  | @foreignKey column references owner name h hname =>
      rw [Aliasing.column, h]
      simp only [hname]
      exact finds_memo_issue (Plan.ownKey_column h (by simp) (by simp)) .foreignKey name
  | @rowNumber column partitionBy h =>
      rw [Aliasing.column, h]
      exact finds_memo_issue (Plan.ownKey_column h (by simp) (by simp)) .rowNumber ""
  | @greatest column left right role h =>
      rw [Aliasing.column, h]
      cases role with
      | identity =>
          exact finds_memo_issue (Plan.ownKey_column h (by simp) (by simp)) .greatest "FK"
      | rowNumber =>
          exact finds_memo_issue (Plan.ownKey_column h (by simp) (by simp)) .greatest "RN"
  | @maxOver column source partitionBy h =>
      rw [Aliasing.column, h]
      exact finds_memo_issue (Plan.ownKey_column h (by simp) (by simp)) .maxOver ""

theorem settles_column {column : ColumnId} (h : plan.Named names column) :
    Settles plan (Aliasing.column names plan column) := by
  have hfinds := finds_column h
  rw [Aliasing.column] at hfinds ⊢
  exact hfinds.settles

theorem settles_select {select : SelectId}
    (h : Finds plan (.select select) (Aliasing.select names plan select)) :
    Settles plan (Aliasing.select names plan select) := by
  rw [Aliasing.select] at h ⊢
  exact h.settles

theorem finds_select_scan {select : SelectId} {scan : TableScan T} {name : String}
    (h : plan.selects[select]? = some (.scan scan))
    (hname : names.tableName scan.table = .ok name) :
    Finds plan (.select select) (Aliasing.select names plan select) := by
  rw [Aliasing.select, h]
  refine (finds_table hname).memo ?_
  rw [Plan.ownKey, Plan.ownKey, h]

theorem finds_select_view {select table : SelectId} {rowNumber : ColumnId}
    (h : plan.selects[select]? = some (.view table rowNumber)) :
    Finds plan (.select select) (Aliasing.select names plan select) := by
  rw [Aliasing.select, h]
  exact finds_memo_issue (by rw [Plan.ownKey, h]) .view ""

theorem finds_select_join {select : SelectId} {join : PlanJoin}
    (h : plan.selects[select]? = some (.join join)) :
    Finds plan (.select select) (Aliasing.select names plan select) := by
  rw [Aliasing.select, h]
  exact finds_memo_issue (by rw [Plan.ownKey, h]) .join ""

end Aliasing

end FlatAggregate
