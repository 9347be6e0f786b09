import FlatAggregate.Proofs.Alias.Asking

/-!
# The answers of alias books

Whether a key can have an alias is up to the plan and the names alone, and so is the error if it
cannot (`Plan.refusal`). A book holds aliases only of keys that can have one (`AliasBook.Issued`).
So whatever was asked before, a key is refused with its error and the book left as it is, or it is
answered, from then on with the same alias (`Aliasing.answers_aliasOf`).

A book `Leads` to another one that has all of its entries, perhaps more, or is the same book. What
is said of one question here holds of every program that asks, since the book between two questions
stays one that only holds what was answered.
-/

namespace FlatAggregate

variable {T C α β : Type}

def NamingError.of? : Except NamingError α → Option NamingError
  | .ok _ => none
  | .error error => some error

namespace Plan

variable (names : NameSource T C) (plan : Plan T C)

/-- Why a column has no alias. A derived column has none if the column that it shows again has
none. -/
def columnRefusal (column : ColumnId) : Option NamingError :=
  match plan.columns[column]? with
  | some (.derived source) =>
    earlier column (fun p _ => columnRefusal p) (some (.columnNotInScope (.column column))) source
  | some (.foreignKey _ owner) => NamingError.of? (names.storedName plan column owner)
  | some (.literal value) => some (.noAlias value)
  | some _ => none
  | none => some (.columnNotInScope (.column column))
termination_by column

def refusal : AliasKey T C → Option NamingError
  | .table table => NamingError.of? (names.tableName table)
  | .token _ => none
  | .select select =>
    match plan.selects[select]? with
    | some (.scan scan) => NamingError.of? (names.tableName scan.table)
    | some _ => none
    | none => some (.unknownTable (toString select))
  | .column column => columnRefusal names plan column

end Plan

namespace AliasBook

variable [DecidableEq T] [DecidableEq C]

/-- A sound book with aliases only of keys that are not refused. -/
structure Issued (names : NameSource T C) (plan : Plan T C) (book : AliasBook T C) : Prop
    extends book.Sound plan where
  refusal_eq_none : ∀ key aliasName, book.find? key = some aliasName →
    plan.refusal names key = none

/-- What becomes of a book: it is left as it is, or it has more entries besides its own. -/
structure Leads (names : NameSource T C) (plan : Plan T C) (book later : AliasBook T C) :
    Prop where
  issued : later.Issued names plan
  keeps : book.Extends later
  grows : later = book ∨ book.size < later.size

variable {names : NameSource T C} {plan : Plan T C} {book later last : AliasBook T C}
  {key : AliasKey T C} {aliasName : String}

theorem issued_empty (names : NameSource T C) (plan : Plan T C) (settings : Settings) :
    ({ settings } : AliasBook T C).Issued names plan where
  toSound := sound_empty plan settings
  refusal_eq_none key aliasName h := by cases h

theorem Issued.leads (h : book.Issued names plan) : book.Leads names plan book :=
  ⟨h, .refl book, .inl rfl⟩

theorem Leads.size_le (h : book.Leads names plan later) : book.size ≤ later.size := by
  rcases h.grows with rfl | hlt
  · exact Nat.le_refl _
  · exact Nat.le_of_lt hlt

theorem Leads.trans (h : book.Leads names plan later) (h' : later.Leads names plan last) :
    book.Leads names plan last where
  issued := h'.issued
  keeps := h.keeps.trans h'.keeps
  grows := by
    rcases h'.grows with rfl | hlt
    · exact h.grows
    · exact .inr (Nat.lt_of_le_of_lt h.size_le hlt)

theorem Leads.antisymm (h : book.Leads names plan later) (h' : later.Leads names plan book) :
    later = book := by
  rcases h.grows with heq | hlt
  · exact heq
  · exact absurd h'.size_le (Nat.not_le_of_gt hlt)

omit [DecidableEq T] [DecidableEq C] in
theorem size_enter (book : AliasBook T C) (key : AliasKey T C) (aliasName : String) :
    (book.enter key aliasName).size = book.size + 1 := by
  simp [size, enter]

/-- A key that is not refused may be entered where the book stays sound. -/
theorem Extends.enter (hkeeps : book.Extends later) (hsize : book.size ≤ later.size)
    (hsound : (later.enter key aliasName).Sound plan)
    (hfind : ∀ other name, later.find? other = some name → plan.refusal names other = none)
    (hkey : plan.refusal names key = none) :
    book.Leads names plan (later.enter key aliasName) where
  issued := by
    refine ⟨hsound, fun other name hother => ?_⟩
    rcases find?_of_enter hother with hother | ⟨rfl, -⟩
    · exact hfind other name hother
    · exact hkey
  keeps := hkeeps.trans (extends_enter later key aliasName)
  grows := by
    rw [size_enter]
    exact .inr (Nat.lt_succ_of_le hsize)

end AliasBook

namespace Aliasing

variable [DecidableEq T] [DecidableEq C]

omit [DecidableEq T] [DecidableEq C] in
theorem on_bind_error {m : Aliasing T C α} {f : α → Aliasing T C β} {book later : AliasBook T C}
    {error : NamingError} (h : m.on book = (.error error, later)) :
    (m >>= f).on book = (.error error, later) := by
  rw [on_bind, h]

/-- A computation answers for a key: if the key has an alias, with that; if it is refused, with the
error and without a trace in the book; else with a new alias, which the key has from then on. -/
structure Answers (names : NameSource T C) (plan : Plan T C) (key : AliasKey T C)
    (m : Aliasing T C String) : Prop where
  found : ∀ book aliasName, book.find? key = some aliasName → m.on book = (.ok aliasName, book)
  refused : ∀ book error, book.Issued names plan → plan.refusal names key = some error →
    m.on book = (.error error, book)
  given : ∀ book, book.Issued names plan → plan.refusal names key = none →
    ∃ aliasName later, m.on book = (.ok aliasName, later) ∧ book.Leads names plan later ∧
      later.find? key = some aliasName

variable {names : NameSource T C} {plan : Plan T C} {key other : AliasKey T C}
  {make : Aliasing T C String} {book : AliasBook T C}

theorem find?_of_refused {error : NamingError} (hbook : book.Issued names plan)
    (h : plan.refusal names key = some error) : book.find? key = none := by
  cases hfind : book.find? key with
  | none => rfl
  | some aliasName =>
      rw [hbook.refusal_eq_none key aliasName hfind] at h
      cases h

theorem memo_of_error {error : NamingError} (h : book.find? key = none)
    (hmake : make.on book = (.error error, book)) :
    (memo key make).on book = (.error error, book) := by
  rw [memo, on_bind_ok (on_get book)]
  simp only [h]
  exact on_bind_error hmake

theorem answers_memo_issue (hown : plan.ownKey key = key) (hkey : plan.refusal names key = none)
    (kind : Alias.Kind) (name : String) : Answers names plan key (memo key (issue kind name)) where
  found _ _ h := memo_of_find? h
  refused _ _ _ h := by
    rw [hkey] at h
    cases h
  given book hbook _ := by
    cases hfind : book.find? key with
    | some aliasName => exact ⟨aliasName, book, memo_of_find? hfind, hbook.leads, hfind⟩
    | none =>
        refine ⟨_, _, memo_of_find?_none hfind (on_issue kind name book), ?_,
          AliasBook.find?_enter_self hfind⟩
        exact AliasBook.Extends.enter (fun _ _ h => h) (Nat.le_refl _)
          (hbook.enter_issued hown hfind kind name) hbook.refusal_eq_none hkey

theorem answers_memo_throw {error : NamingError} (hkey : plan.refusal names key = some error)
    (hmake : ∀ book, make.on book = (.error error, book)) :
    Answers names plan key (memo key make) where
  found _ _ h := memo_of_find? h
  refused book error' hbook h := by
    obtain rfl := Option.some.inj (hkey.symm.trans h)
    exact memo_of_error (find?_of_refused hbook h) (hmake book)
  given _ _ h := by
    rw [hkey] at h
    cases h

/-- A key may delegate to one that has the same own key and is refused in the same cases. -/
theorem Answers.memo (h : Answers names plan other make)
    (hown : plan.ownKey other = plan.ownKey key)
    (hrefusal : plan.refusal names key = plan.refusal names other) :
    Answers names plan key (memo key make) where
  found _ _ h := memo_of_find? h
  refused book error hbook herror :=
    memo_of_error (find?_of_refused hbook herror)
      (h.refused book error hbook (hrefusal.symm.trans herror))
  given book hbook hkey := by
    cases hfind : book.find? key with
    | some aliasName => exact ⟨aliasName, book, memo_of_find? hfind, hbook.leads, hfind⟩
    | none =>
        obtain ⟨aliasName, later, hmake, hleads, hother⟩ :=
          h.given book hbook (hrefusal.symm.trans hkey)
        have hsound := hleads.issued.enter_shared hother hown
        refine ⟨aliasName, _, memo_of_find?_none hfind hmake,
          hleads.keeps.enter hleads.size_le hsound hleads.issued.refusal_eq_none hkey, ?_⟩
        -- should `make` have entered the key already, then with the same alias
        cases hkey : later.find? key with
        | none => exact AliasBook.find?_enter_self hkey
        | some name =>
            rw [hleads.issued.alias_eq hother hkey hown]
            exact AliasBook.extends_enter _ _ _ _ _ hkey

theorem answers_table (table : T) :
    Answers names plan (.table table) (Aliasing.table names table) := by
  cases h : names.tableName table with
  | ok name =>
      have hkey : plan.refusal names (.table table) = none := by rw [Plan.refusal, h]; rfl
      rw [Aliasing.table, h]
      exact answers_memo_issue rfl hkey .table name
  | error error =>
      have hkey : plan.refusal names (.table table) = some error := by rw [Plan.refusal, h]; rfl
      rw [Aliasing.table, h]
      exact answers_memo_throw hkey fun book => on_bind_error (on_lift _ book)

theorem answers_token (token : C) :
    Answers names plan (.token token) (Aliasing.token names token : Aliasing T C String) :=
  answers_memo_issue rfl rfl .column _

theorem answers_select (select : SelectId) :
    Answers names plan (.select select) (Aliasing.select names plan select) := by
  rw [Aliasing.select]
  cases h : plan.selects[select]? with
  | none => exact answers_memo_throw (by rw [Plan.refusal, h]) (on_throw _)
  | some definition =>
      cases definition with
      | scan scan =>
          refine (answers_table scan.table).memo ?_ ?_
          · rw [Plan.ownKey, Plan.ownKey, h]
          · rw [Plan.refusal, Plan.refusal, h]
      | view table rowNumber =>
          exact answers_memo_issue (by rw [Plan.ownKey, h]) (by rw [Plan.refusal, h]) .view ""
      | join join =>
          exact answers_memo_issue (by rw [Plan.ownKey, h]) (by rw [Plan.refusal, h]) .join ""

theorem answers_column (column : ColumnId) :
    Answers names plan (.column column) (Aliasing.column names plan column) := by
  induction column using Nat.strongRecOn with
  | ind column ih =>
    have hrefusal : plan.refusal names (.column column) = plan.columnRefusal names column := rfl
    rw [Aliasing.column]
    rw [Plan.columnRefusal] at hrefusal
    cases h : plan.columns[column]? with
    | none =>
        simp only [h] at hrefusal
        exact answers_memo_throw hrefusal (on_throw _)
    | some definition =>
        simp only [h] at hrefusal
        cases definition with
        | base token =>
            refine (answers_token token).memo ?_ hrefusal
            rw [Plan.ownKey, Plan.ownKey, Plan.canonical_of_ne h (by simp), h]
        | derived source =>
            by_cases hlt : source < column
            · simp only [earlier, dif_pos hlt] at hrefusal ⊢
              refine (ih source hlt).memo ?_ hrefusal
              rw [Plan.ownKey, Plan.ownKey, Plan.canonical_of_derived h hlt]
            · simp only [earlier, dif_neg hlt] at hrefusal ⊢
              exact answers_memo_throw hrefusal (on_throw _)
        | foreignKey references owner =>
            cases hname : names.storedName plan column owner with
            | ok name =>
                simp only [hname] at hrefusal ⊢
                exact answers_memo_issue (Plan.ownKey_column h (by simp) (by simp)) hrefusal
                  .foreignKey name
            | error error =>
                simp only [hname] at hrefusal ⊢
                exact answers_memo_throw hrefusal fun book => on_bind_error (on_lift _ book)
        | rowNumber partitionBy =>
            exact answers_memo_issue (Plan.ownKey_column h (by simp) (by simp)) hrefusal
              .rowNumber ""
        | greatest left right role =>
            have hown := Plan.ownKey_column h (by simp) (by simp)
            cases role with
            | identity => exact answers_memo_issue hown hrefusal .greatest "FK"
            | rowNumber => exact answers_memo_issue hown hrefusal .greatest "RN"
        | maxOver source partitionBy =>
            exact answers_memo_issue (Plan.ownKey_column h (by simp) (by simp)) hrefusal
              .maxOver ""
        | literal value => exact answers_memo_throw hrefusal (on_throw _)

theorem answers_aliasOf (key : AliasKey T C) : Answers names plan key (aliasOf names plan key) := by
  cases key with
  | table table => exact answers_table table
  | token token => exact answers_token token
  | select select => exact answers_select select
  | column column => exact answers_column column

end Aliasing

end FlatAggregate
