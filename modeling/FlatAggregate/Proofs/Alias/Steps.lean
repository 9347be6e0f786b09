import FlatAggregate.Proofs.Alias.Programs

/-!
# Steps of an alias book

A key that does not delegate has a kind and a name for its alias (`Plan.issued?`). A book changes by
two sorts of steps only: such a key is entered with the next alias of its kind, or a key that
delegates is entered with the alias of another key (`AliasBook.Step`). So what both steps keep,
every program keeps that asks for aliases, also if it fails (`Aliasing.Asks.keeps`).
-/

namespace FlatAggregate

variable {T C α β : Type}

/-- The kind and the name with which a key gets an alias of its own; nothing for a key that takes
the alias of another key or has none. -/
def Plan.issued? (names : NameSource T C) (plan : Plan T C) :
    AliasKey T C → Option (Alias.Kind × String)
  | .table table => (names.tableName table).toOption.map (.table, ·)
  | .token token => some (.column, names.columnName token)
  | .select select =>
    match plan.selects[select]? with
    | some (.view _ _) => some (.view, "")
    | some (.join _) => some (.join, "")
    | _ => none
  | .column column =>
    match plan.columns[column]? with
    | some (.foreignKey _ owner) =>
      (names.storedName plan column owner).toOption.map (.foreignKey, ·)
    | some (.rowNumber _) => some (.rowNumber, "")
    | some (.greatest _ _ .identity) => some (.greatest, "FK")
    | some (.greatest _ _ .rowNumber) => some (.greatest, "RN")
    | some (.maxOver _ _) => some (.maxOver, "")
    | _ => none

inductive AliasBook.Step (names : NameSource T C) (plan : Plan T C) :
    AliasBook T C → AliasKey T C → AliasBook T C → Prop
  | delegated {book : AliasBook T C} {key : AliasKey T C} {aliasName : String}
      (h : plan.issued? names key = none) : Step names plan book key (book.enter key aliasName)
  | issued {book : AliasBook T C} {key : AliasKey T C} {kind : Alias.Kind} {name : String}
      (h : plan.issued? names key = some (kind, name)) :
    Step names plan book key ((book.issue kind name).2.enter key (book.issue kind name).1)

namespace Aliasing

variable {P : AliasBook T C → Prop} {m : Aliasing T C α} {f : α → Aliasing T C β}
  {kind : Alias.Kind} {name : String}

/-- A computation keeps a property of the book, also if it fails. -/
def Keeps (P : AliasBook T C → Prop) (m : Aliasing T C α) : Prop :=
  ∀ book, P book → P (m.on book).2

theorem keeps_lift (result : Except NamingError α) : Keeps P (liftM result) := fun book h => by
  rw [on_lift]
  exact h

theorem keeps_throw (error : NamingError) : Keeps P (throw error : Aliasing T C α) :=
  keeps_lift (.error error)

theorem Keeps.bind (hm : Keeps P m) (hf : ∀ x, Keeps P (f x)) : Keeps P (m >>= f) := by
  intro book hbook
  have hlater := hm book hbook
  rw [on_bind]
  cases hon : m.on book with
  | mk result later =>
    rw [hon] at hlater
    cases result with
    | error error => exact hlater
    | ok x => exact hf x later hlater

variable [DecidableEq T] [DecidableEq C] {names : NameSource T C} {plan : Plan T C}
  {key : AliasKey T C} {make : Aliasing T C String}

/-- Entering a key changes the book by what is made for it and by its entry. -/
theorem keeps_memo (hmake : Keeps P make)
    (henter : ∀ book aliasName, P book → P (book.enter key aliasName)) :
    Keeps P (memo key make) := by
  intro book hbook
  have hlater := hmake book hbook
  cases hfind : book.find? key with
  | some aliasName =>
      rw [memo_of_find? hfind]
      exact hbook
  | none =>
      cases hon : make.on book with
      | mk result later =>
        rw [hon] at hlater
        cases result with
        | error error =>
            rw [memo, on_bind_ok (on_get book)]
            simp only [hfind]
            rw [on_bind_error hon]
            exact hlater
        | ok aliasName =>
            rw [memo_of_find?_none hfind hon]
            exact henter later aliasName hlater

section Keys

variable {Q : AliasKey T C → Prop}
  (hstep : ∀ book key later, Q key → AliasBook.Step names plan book key later → P book → P later)

include hstep

theorem keeps_delegated (hQ : Q key) (hkey : plan.issued? names key = none)
    (hmake : Keeps P make) : Keeps P (memo key make) :=
  keeps_memo hmake fun book _ => hstep book key _ hQ (.delegated hkey)

theorem keeps_issued (hQ : Q key) (hkey : plan.issued? names key = some (kind, name)) :
    Keeps P (memo key (issue kind name)) := by
  intro book hbook
  cases hfind : book.find? key with
  | some aliasName =>
      rw [memo_of_find? hfind]
      exact hbook
  | none =>
      rw [memo_of_find?_none hfind (on_issue kind name book)]
      exact hstep book key _ hQ (.issued hkey) hbook

theorem keeps_table {table : T} (hQ : Q (.table table)) :
    Keeps P (Aliasing.table names table) := by
  rw [Aliasing.table]
  cases hname : names.tableName table with
  | ok name =>
      have hkey : plan.issued? names (.table table) = some (.table, name) := by
        rw [Plan.issued?, hname]
        rfl
      exact keeps_issued hstep hQ hkey
  | error error =>
      have hkey : plan.issued? names (.table table) = none := by
        rw [Plan.issued?, hname]
        rfl
      exact keeps_delegated hstep hQ hkey (keeps_throw error)

theorem keeps_token {token : C} (hQ : Q (.token token)) :
    Keeps P (Aliasing.token names token) :=
  keeps_issued hstep hQ rfl

theorem keeps_select {select : SelectId} (hQ : Q (.select select))
    (htable : ∀ scan, plan.scanAt select = some scan → Q (.table scan.table)) :
    Keeps P (Aliasing.select names plan select) := by
  rw [Aliasing.select]
  cases hselect : plan.selects[select]? with
  | none => exact keeps_delegated hstep hQ (by rw [Plan.issued?, hselect]) (keeps_throw _)
  | some definition =>
      cases definition with
      | scan scan =>
          have hscan : plan.scanAt select = some scan := by rw [Plan.scanAt, hselect]
          exact keeps_delegated hstep hQ (by rw [Plan.issued?, hselect])
            (keeps_table hstep (htable scan hscan))
      | view table rowNumber => exact keeps_issued hstep hQ (by rw [Plan.issued?, hselect])
      | join join => exact keeps_issued hstep hQ (by rw [Plan.issued?, hselect])

theorem keeps_column (hcolumns : ∀ column, Q (.column column)) (htokens : ∀ token, Q (.token token))
    (column : ColumnId) : Keeps P (Aliasing.column names plan column) := by
  induction column using Nat.strongRecOn with
  | ind column ih =>
    have hQ := hcolumns column
    rw [Aliasing.column]
    cases hcolumn : plan.columns[column]? with
    | none => exact keeps_delegated hstep hQ (by rw [Plan.issued?, hcolumn]) (keeps_throw _)
    | some definition =>
        cases definition with
        | base token =>
            exact keeps_delegated hstep hQ (by rw [Plan.issued?, hcolumn])
              (keeps_token hstep (htokens token))
        | derived source =>
            refine keeps_delegated hstep hQ (by rw [Plan.issued?, hcolumn]) ?_
            by_cases hlt : source < column
            · simp only [earlier, dif_pos hlt]
              exact ih source hlt
            · simp only [earlier, dif_neg hlt]
              exact keeps_throw _
        | foreignKey references owner =>
            have hkey : plan.issued? names (.column column) =
                (names.storedName plan column owner).toOption.map (.foreignKey, ·) := by
              rw [Plan.issued?, hcolumn]
            dsimp only
            cases hname : names.storedName plan column owner with
            | ok name =>
                rw [hname] at hkey
                exact keeps_issued hstep hQ hkey
            | error error =>
                rw [hname] at hkey
                exact keeps_delegated hstep hQ hkey (keeps_throw error)
        | rowNumber partitionBy => exact keeps_issued hstep hQ (by rw [Plan.issued?, hcolumn])
        | greatest left right role =>
            cases role with
            | identity => exact keeps_issued hstep hQ (by rw [Plan.issued?, hcolumn])
            | rowNumber => exact keeps_issued hstep hQ (by rw [Plan.issued?, hcolumn])
        | maxOver source partitionBy =>
            exact keeps_issued hstep hQ (by rw [Plan.issued?, hcolumn])
        | literal value =>
            exact keeps_delegated hstep hQ (by rw [Plan.issued?, hcolumn]) (keeps_throw _)

end Keys

theorem Asks.keeps (hm : Asks names plan m)
    (hstep : ∀ book key later, AliasBook.Step names plan book key later → P book → P later) :
    Keeps P m := by
  have hstep' : ∀ book key later, (fun _ => True) key →
      AliasBook.Step names plan book key later → P book → P later :=
    fun book key later _ => hstep book key later
  induction hm with
  | pure x => exact fun _ hbook => hbook
  | lift result => exact keeps_lift result
  | ask key =>
      cases key with
      | table table => exact keeps_table hstep' trivial
      | token token => exact keeps_token hstep' trivial
      | select select => exact keeps_select hstep' trivial fun _ _ => trivial
      | column column => exact keeps_column hstep' (fun _ => trivial) (fun _ => trivial) column
  | bind _ _ ihm ihf => exact ihm.bind ihf

end Aliasing

end FlatAggregate
