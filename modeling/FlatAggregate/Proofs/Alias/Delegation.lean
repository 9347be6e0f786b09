import FlatAggregate.Proofs.Alias.Numbering
import Mathlib.Logic.Relation

/-!
# What a book keeps

A key without an alias of its own takes over that of another key (`Plan.delegate?`), which stands
lower in the plan. So what is made for a key is a number, the alias of the key below, or nothing
(`Aliasing.Makes`), and asking enters new keys one at a time, none before the key from which it
takes its alias (`AliasBook.Entry`). In a book that was only asked for aliases all accounts are
therefore in order, whatever was asked and refused on the way (`AliasBook.Accounted`).
-/

namespace FlatAggregate

variable {T C : Type}

/-- The key whose alias a key takes over; nothing for a key with an alias of its own, or with
none. -/
def Plan.delegate? (plan : Plan T C) : AliasKey T C → Option (AliasKey T C)
  | .table _ | .token _ => none
  | .select select =>
    match plan.selects[select]? with
    | some (.scan scan) => some (.table scan.table)
    | _ => none
  | .column column =>
    match plan.columns[column]? with
    | some (.base token) => some (.token token)
    | some (.derived source) => some (.column source)
    | _ => none

theorem Plan.issued?_of_delegate? {names : NameSource T C} {plan : Plan T C}
    {key other : AliasKey T C} (h : plan.delegate? key = some other) :
    plan.issued? names key = none := by
  cases key with
  | table table => cases h
  | token token => cases h
  | select select =>
      rw [delegate?] at h
      rw [issued?]
      split at h
      · rename_i heq
        rw [heq]
      · cases h
  | column column =>
      rw [delegate?] at h
      rw [issued?]
      split at h
      · rename_i heq
        rw [heq]
      · rename_i heq
        rw [heq]
      · cases h

/-- How far a key can be from the key whose alias it bears. -/
def AliasKey.rank : AliasKey T C → Nat
  | .table _ | .token _ => 0
  | .select _ => 1
  | .column position => position + 1

namespace Aliasing

variable [DecidableEq T] [DecidableEq C] {names : NameSource T C} {plan : Plan T C}

/-- What is made for a key that has no alias yet: the next alias of a kind, the alias of a key of
lower rank, or nothing. -/
inductive Makes (names : NameSource T C) (plan : Plan T C) :
    AliasKey T C → Aliasing T C String → Prop
  | issues {key : AliasKey T C} {kind : Alias.Kind} {name : String}
      (h : plan.issued? names key = some (kind, name)) : Makes names plan key (issue kind name)
  | delegates {key other : AliasKey T C} (h : plan.delegate? key = some other)
      (hlt : other.rank < key.rank) : Makes names plan key (aliasOf names plan other)
  | fails {key : AliasKey T C} {make : Aliasing T C String} {error : NamingError}
      (h : ∀ book, make.on book = (.error error, book)) : Makes names plan key make

theorem exists_makes_select (select : SelectId) : ∃ make, Makes names plan (.select select) make ∧
    Aliasing.select names plan select = memo (.select select) make := by
  rw [Aliasing.select]
  refine ⟨_, ?_, rfl⟩
  cases hselect : plan.selects[select]? with
  | none => exact .fails (on_throw _)
  | some definition =>
      cases definition with
      | scan scan =>
          have hkey : plan.delegate? (.select select) = some (.table scan.table) := by
            rw [Plan.delegate?, hselect]
          exact .delegates hkey Nat.zero_lt_one
      | view table rowNumber => exact .issues (by rw [Plan.issued?, hselect])
      | join join => exact .issues (by rw [Plan.issued?, hselect])

theorem exists_makes_column (column : ColumnId) : ∃ make, Makes names plan (.column column) make ∧
    Aliasing.column names plan column = memo (.column column) make := by
  rw [Aliasing.column]
  refine ⟨_, ?_, rfl⟩
  cases hcolumn : plan.columns[column]? with
  | none => exact .fails (on_throw _)
  | some definition =>
      cases definition with
      | base token =>
          have hkey : plan.delegate? (.column column) = some (.token token) := by
            rw [Plan.delegate?, hcolumn]
          exact .delegates hkey (Nat.succ_pos column)
      | derived source =>
          have hkey : plan.delegate? (.column column) = some (.column source) := by
            rw [Plan.delegate?, hcolumn]
          by_cases hlt : source < column
          · simp only [earlier, dif_pos hlt]
            exact .delegates hkey (Nat.succ_lt_succ hlt)
          · simp only [earlier, dif_neg hlt]
            exact .fails (on_throw _)
      | foreignKey references owner =>
          cases hname : names.storedName plan column owner with
          | ok name =>
              have hkey : plan.issued? names (.column column) = some (.foreignKey, name) := by
                rw [Plan.issued?, hcolumn]
                dsimp only
                rw [hname]
                rfl
              simp only [hname]
              exact .issues hkey
          | error error =>
              simp only [hname]
              exact .fails fun book => on_bind_error (on_lift _ book)
      | rowNumber partitionBy => exact .issues (by rw [Plan.issued?, hcolumn])
      | greatest left right role =>
          cases role with
          | identity => exact .issues (by rw [Plan.issued?, hcolumn])
          | rowNumber => exact .issues (by rw [Plan.issued?, hcolumn])
      | maxOver source partitionBy => exact .issues (by rw [Plan.issued?, hcolumn])
      | literal value => exact .fails (on_throw _)

/-- Every key is looked up before anything is made for it. -/
theorem exists_makes (key : AliasKey T C) : ∃ make, Makes names plan key make ∧
    aliasOf names plan key = memo key make := by
  cases key with
  | table table =>
      rw [aliasOf, Aliasing.table]
      refine ⟨_, ?_, rfl⟩
      cases hname : names.tableName table with
      | ok name =>
          have hkey : plan.issued? names (.table table) = some (.table, name) := by
            rw [Plan.issued?, hname]
            rfl
          exact .issues hkey
      | error error => exact .fails fun book => on_bind_error (on_lift _ book)
  | token token => exact ⟨_, .issues rfl, rfl⟩
  | select select => exact exists_makes_select select
  | column column => exact exists_makes_column column

/-- A key that is refused leaves the book as it is. -/
theorem book_eq_of_error {key : AliasKey T C} {error : NamingError} {book : AliasBook T C}
    (hbook : book.Issued names plan)
    (h : ((aliasOf names plan key).on book).1 = .error error) :
    ((aliasOf names plan key).on book).2 = book := by
  have hanswers : Answers names plan key (aliasOf names plan key) := answers_aliasOf key
  cases hkey : plan.refusal names key with
  | some refusal => rw [hanswers.refused book refusal hbook hkey]
  | none =>
      obtain ⟨aliasName, later, hon, -⟩ := hanswers.given book hbook hkey
      rw [hon] at h
      cases h

end Aliasing

namespace AliasBook

variable [DecidableEq T] [DecidableEq C] {names : NameSource T C} {plan : Plan T C}
  {settings : Settings} {book later : AliasBook T C}

/-- A key that has no alias yet is entered: with that of the key whose alias it takes over, which
has one already, or with the next one of its kind. -/
inductive Entry (names : NameSource T C) (plan : Plan T C) : AliasBook T C → AliasBook T C → Prop
  | delegated {book : AliasBook T C} {key other : AliasKey T C} {aliasName : String}
      (hnew : book.find? key = none) (hkey : plan.delegate? key = some other)
      (hother : book.find? other = some aliasName) :
    Entry names plan book (book.enter key aliasName)
  | issued {book : AliasBook T C} {key : AliasKey T C} {kind : Alias.Kind} {name : String}
      (hnew : book.find? key = none) (hkey : plan.issued? names key = some (kind, name)) :
    Entry names plan book ((book.issue kind name).2.enter key (book.issue kind name).1)

/-- All accounts of a book are in order: besides the numbers of each kind, no key is entered twice;
a key takes over an alias if and only if it has no number; and with a key that takes over an alias
the book holds the key that it takes it from, with the same alias. -/
structure Accounted (names : NameSource T C) (plan : Plan T C) (settings : Settings)
    (book : AliasBook T C) : Prop extends book.Numbered names plan settings where
  nodup_keys : (book.entries.map Prod.fst).Nodup
  delegate?_eq_none_iff : ∀ key aliasName, book.find? key = some aliasName →
    (plan.delegate? key = none ↔ (plan.issued? names key).isSome)
  delegated : ∀ key other aliasName, plan.delegate? key = some other →
    book.find? key = some aliasName → book.find? other = some aliasName

theorem accounted_empty (names : NameSource T C) (plan : Plan T C) (settings : Settings) :
    ({ settings } : AliasBook T C).Accounted names plan settings where
  toNumbered := numbered_empty names plan settings
  nodup_keys := List.nodup_nil
  delegate?_eq_none_iff key aliasName h := by cases h
  delegated key other aliasName _ h := by cases h

theorem nodup_keys_enter {key : AliasKey T C} (hnew : book.find? key = none) (aliasName : String)
    (h : (book.entries.map Prod.fst).Nodup) :
    ((book.enter key aliasName).entries.map Prod.fst).Nodup := by
  have hkey : key ∉ book.entries.map Prod.fst := by
    intro hmem
    obtain ⟨entry, hentry, rfl⟩ := List.mem_map.mp hmem
    exact absurd rfl (bne_iff_ne.mp (List.lookup_eq_none_iff.mp hnew entry hentry))
  rw [enter, List.map_append]
  exact List.concat_eq_append ▸ h.concat hkey

theorem Accounted.entry (h : book.Accounted names plan settings)
    (hentry : Entry names plan book later) : later.Accounted names plan settings := by
  cases hentry with
  | @delegated key other aliasName hnew hkey hother =>
      have hissued : plan.issued? names key = none := Plan.issued?_of_delegate? hkey
      refine ⟨h.enter hissued, nodup_keys_enter hnew aliasName h.nodup_keys, ?_, ?_⟩
      · intro asked name hfind
        rcases find?_of_enter hfind with hfind | ⟨rfl, -⟩
        · exact h.delegate?_eq_none_iff asked name hfind
        · simp [hkey, hissued]
      · intro asked behind name hasked hfind
        apply extends_enter
        rcases find?_of_enter hfind with hfind | ⟨rfl, rfl⟩
        · exact h.delegated asked behind name hasked hfind
        · obtain rfl := Option.some.inj (hkey.symm.trans hasked)
          exact hother
  | @issued key kind name hnew hkey =>
      have hdelegate : plan.delegate? key = none := by
        cases hother : plan.delegate? key with
        | none => rfl
        | some other => rw [Plan.issued?_of_delegate? hother] at hkey; cases hkey
      refine ⟨h.enter_issue hkey, nodup_keys_enter hnew _ h.nodup_keys, ?_, ?_⟩
      · intro asked text hfind
        rcases find?_of_enter hfind with hfind | ⟨rfl, -⟩
        · exact h.delegate?_eq_none_iff asked text hfind
        · simp [hkey, hdelegate]
      · intro asked behind text hasked hfind
        apply extends_enter
        rcases find?_of_enter hfind with hfind | ⟨rfl, -⟩
        · exact h.delegated asked behind text hasked hfind
        · rw [hdelegate] at hasked
          cases hasked

end AliasBook

namespace Aliasing

open AliasBook

variable [DecidableEq T] [DecidableEq C] {names : NameSource T C} {plan : Plan T C}

/-- Asking enters keys one at a time, none of higher rank than the key that is asked for. -/
theorem entries_aliasOf (key : AliasKey T C) {book : AliasBook T C}
    (hbook : book.Issued names plan) :
    Relation.ReflTransGen (Entry names plan) book ((aliasOf names plan key).on book).2 ∧
      ∀ above : AliasKey T C, key.rank < above.rank →
        ((aliasOf names plan key).on book).2.find? above = book.find? above := by
  induction hrank : key.rank using Nat.strongRecOn generalizing key book with
  | ind rank ih =>
    obtain ⟨make, hmakes, heq⟩ : ∃ make, Makes names plan key make ∧
        aliasOf names plan key = memo key make := exists_makes key
    cases hfind : book.find? key with
    | some aliasName =>
        rw [heq, memo_of_find? hfind]
        exact ⟨.refl, fun _ _ => rfl⟩
    | none =>
        have habove : ∀ {later : AliasBook T C} {aliasName : String} {above : AliasKey T C},
            key.rank < above.rank →
              (later.enter key aliasName).find? above = later.find? above := by
          intro later aliasName above hlt
          have hne : above ≠ key := fun hkey => Nat.lt_irrefl _ (hkey ▸ hlt)
          rw [find?_enter, if_neg hne, Option.or_none]
        cases hmakes with
        | issues hkey =>
            rw [heq, memo_of_find?_none hfind (on_issue _ _ book)]
            exact ⟨.single (.issued hfind hkey), fun above hlt => habove (hrank ▸ hlt)⟩
        | fails hfails =>
            rw [heq, memo_of_error hfind (hfails book)]
            exact ⟨.refl, fun _ _ => rfl⟩
        | @delegates other hkey hlt =>
            obtain ⟨hsteps, hkeeps⟩ := ih other.rank (hrank ▸ hlt) other hbook rfl
            cases hon : (aliasOf names plan other).on book with
            | mk result later =>
              rw [hon] at hsteps hkeeps
              cases result with
              | error error =>
                  have hquiet := book_eq_of_error hbook (congrArg Prod.fst hon)
                  rw [hon] at hquiet
                  obtain rfl : later = book := hquiet
                  rw [heq, memo_of_error hfind hon]
                  exact ⟨.refl, fun _ _ => rfl⟩
              | ok aliasName =>
                  have hother := find?_of_aliasOf hbook (congrArg Prod.fst hon)
                  rw [hon] at hother
                  rw [heq, memo_of_find?_none hfind hon]
                  refine ⟨hsteps.tail (.delegated ?_ hkey hother), fun above hlt' => ?_⟩
                  · exact (hkeeps key hlt).trans hfind
                  · rw [habove (hrank ▸ hlt')]
                    exact hkeeps above (hlt.trans (hrank ▸ hlt'))

theorem accounted_aliasOf (key : AliasKey T C) {settings : Settings} {book : AliasBook T C}
    (hbook : book.Issued names plan) (h : book.Accounted names plan settings) :
    ((aliasOf names plan key).on book).2.Accounted names plan settings := by
  obtain ⟨hsteps, -⟩ := entries_aliasOf key hbook
  generalize ((aliasOf names plan key).on book).2 = later at hsteps
  induction hsteps with
  | refl => exact h
  | tail _ hentry ih => exact ih.entry hentry

/-- Whatever keys a new book was asked for, of any plan and with any names, its accounts are in
order: no key is entered twice, the keys that take over no alias have the numbers 1, 2, 3, ... of
their kind in the order of their entries, the counter of the kind is their number, and with the
others the book holds the keys whose aliases they take over. And a key that is refused next leaves
the book as it is. -/
theorem accounted_inTurn (names : NameSource T C) (plan : Plan T C) (settings : Settings)
    (keys : List (AliasKey T C)) :
    (inTurn (aliasOf names plan) keys { settings }).2.Accounted names plan settings ∧
      ∀ key error,
        ((aliasOf names plan key).on (inTurn (aliasOf names plan) keys { settings }).2).1 =
          .error error →
        ((aliasOf names plan key).on (inTurn (aliasOf names plan) keys { settings }).2).2 =
          (inTurn (aliasOf names plan) keys { settings }).2 := by
  have hrun : ∀ (keys : List (AliasKey T C)) (book : AliasBook T C), book.Issued names plan →
      book.Accounted names plan settings →
      (inTurn (aliasOf names plan) keys book).2.Accounted names plan settings := by
    intro keys
    induction keys with
    | nil => exact fun _ _ h => h
    | cons key rest ih =>
        intro book hbook h
        exact ih _ ((Asks.ask key).leads hbook).issued (accounted_aliasOf key hbook h)
  have hempty := issued_empty names plan settings
  refine ⟨hrun keys _ hempty (accounted_empty names plan settings), fun key error h => ?_⟩
  exact book_eq_of_error (inTurn_leads Asks.ask keys hempty).issued h

/-- A parent with a child: after a column that shows the parent's id again, a scan, a literal, which
is refused, a foreign key and a view, the literal is refused once more. -/
theorem accounted_inTurn_child :
    let parent : TableSpec String String := { table := "parent", id := some "parent_id" }
    let child : TableSpec String String := { table := "child", columns := ["value"] }
    let keys : List (AliasKey String String) :=
      [.column 9, .select 0, .column 1, .column 3, .select 2]
    let entries := [(.token "parent_id", "C0001_PARENTID"), (.column 0, "C0001_PARENTID"),
      (.column 9, "C0001_PARENTID"), (.table "parent", "T0001_PARENT"),
      (.select 0, "T0001_PARENT"), (.column 3, "FK0001_PARENTID"), (.select 2, "V0001")]
    ∃ plan, (JoinTree.join (.table parent) (.table child) .multiple "parent").plan = .ok plan ∧
      ∃ book, (inTurn (aliasOf .ofText plan) keys {}).2 = book ∧ book.entries = entries ∧
        book.Accounted .ofText plan {} ∧
        ((aliasOf .ofText plan (.column 1)).on book).1 = .error (.noAlias 1) ∧
        ((aliasOf .ofText plan (.column 1)).on book).2 = book := by
  intro parent child keys entries
  obtain ⟨plan, hplan⟩ : ∃ plan,
      (JoinTree.join (.table parent) (.table child) .multiple "parent").plan = .ok plan := ⟨_, rfl⟩
  obtain ⟨haccounted, hquiet⟩ := accounted_inTurn .ofText plan {} keys
  have hrun : (inTurn (aliasOf .ofText plan) keys {}).2.entries = entries ∧
      ((aliasOf .ofText plan (.column 1)).on (inTurn (aliasOf .ofText plan) keys {}).2).1 =
        .error (.noAlias 1) := by
    obtain rfl := Except.ok.inj hplan
    constructor <;> cbv
  obtain ⟨hentries, hrefused⟩ := hrun
  exact ⟨plan, hplan, _, rfl, hentries, haccounted, hrefused, hquiet _ _ hrefused⟩

end Aliasing

end FlatAggregate
