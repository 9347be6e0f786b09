import FlatAggregate.Proofs.Alias.Asking
import FlatAggregate.Proofs.Plan.Naming

/-!
# Settled books

A book is settled when all selects of a plan and all its named columns have aliases in it. Asking a
settled book is looking up, so a computation can be read as if the aliases were known beforehand.
Every sound book has a settled one after it.

`aliasAt` reads the alias of a key off such a book, and `label` that of a column. Labels are the
same for columns that show the same column, and if the tokens of the tables are distinct only for
these (`label_canonical`, `canonical_eq_of_label_eq`).
-/

namespace FlatAggregate

variable {T C : Type} [DecidableEq T] [DecidableEq C]

namespace AliasBook

variable {plan : Plan T C} {names : NameSource T C} {book : AliasBook T C}
  {column column' : ColumnId} {select select' : SelectId}

/-- A book with aliases for all selects and all named columns of a plan. -/
structure Settled (names : NameSource T C) (plan : Plan T C) (book : AliasBook T C) : Prop where
  sound : book.Sound plan
  select : ∀ select, select < plan.selects.size → ∃ aliasName,
    book.find? (.select select) = some aliasName
  column : ∀ column, plan.Named names column → ∃ aliasName,
    book.find? (.column column) = some aliasName

def aliasAt (book : AliasBook T C) (key : AliasKey T C) : String :=
  (book.find? key).getD ""

def label (book : AliasBook T C) (column : ColumnId) : String :=
  book.aliasAt (.column column)

theorem find?_aliasAt {key : AliasKey T C} (h : ∃ aliasName, book.find? key = some aliasName) :
    book.find? key = some (book.aliasAt key) := by
  obtain ⟨aliasName, h⟩ := h
  rw [aliasAt, h, Option.getD_some]

theorem Sound.exists_later {keys : List (AliasKey T C)}
    (h : ∀ key ∈ keys, ∃ m, Aliasing.Finds plan key m) (hbook : book.Sound plan) :
    ∃ later, later.Sound plan ∧ book.Extends later ∧
      ∀ key ∈ keys, ∃ aliasName, later.find? key = some aliasName := by
  induction keys generalizing book with
  | nil => exact ⟨book, hbook, .refl book, by simp⟩
  | cons key keys ih =>
      obtain ⟨m, hm⟩ := h key List.mem_cons_self
      obtain ⟨aliasName, middle, -, hmiddle, hextends, hfind⟩ := hm book hbook
      obtain ⟨later, hlater, hextends', hkeys⟩ :=
        ih (fun other ho => h other (List.mem_cons_of_mem _ ho)) hmiddle
      refine ⟨later, hlater, hextends.trans hextends', fun other ho => ?_⟩
      rcases List.mem_cons.mp ho with rfl | ho
      · exact ⟨aliasName, hextends' _ _ hfind⟩
      · exact hkeys other ho

theorem Sound.exists_settled (hselects : ∀ select, select < plan.selects.size →
      Aliasing.Finds plan (.select select) (Aliasing.select names plan select))
    (hbook : book.Sound plan) :
    ∃ later, later.Settled names plan ∧ book.Extends later := by
  classical
  let selects : List (AliasKey T C) := (List.range plan.selects.size).map .select
  let columns : List (AliasKey T C) :=
    ((List.range plan.columns.size).filter (plan.Named names ·)).map .column
  have hkeys : ∀ key ∈ selects ++ columns, ∃ m, Aliasing.Finds plan key m := by
    intro key hkey
    rcases List.mem_append.mp hkey with hkey | hkey
    · obtain ⟨select, hselect, rfl⟩ := List.mem_map.mp hkey
      exact ⟨_, hselects select (List.mem_range.mp hselect)⟩
    · obtain ⟨column, hcolumn, rfl⟩ := List.mem_map.mp hkey
      exact ⟨_, Aliasing.finds_column (of_decide_eq_true (List.mem_filter.mp hcolumn).2)⟩
  obtain ⟨later, hlater, hextends, hfound⟩ := hbook.exists_later hkeys
  refine ⟨later, ⟨hlater, fun select hlt => hfound _ ?_, fun column hnamed => hfound _ ?_⟩,
    hextends⟩
  · exact List.mem_append_left _ (List.mem_map_of_mem (List.mem_range.mpr hlt))
  · refine List.mem_append_right _ (List.mem_map_of_mem (List.mem_filter.mpr ⟨?_, ?_⟩))
    · exact List.mem_range.mpr hnamed.lt_size
    · exact decide_eq_true hnamed

namespace Settled

variable (hbook : book.Settled names plan)

include hbook

theorem on_select (h : select < plan.selects.size) :
    (Aliasing.select names plan select).on book = (.ok (book.aliasAt (.select select)), book) := by
  rw [Aliasing.select]
  exact Aliasing.memo_of_find? (find?_aliasAt (hbook.select select h))

theorem on_column (h : plan.Named names column) :
    (Aliasing.column names plan column).on book = (.ok (book.label column), book) := by
  rw [Aliasing.column]
  exact Aliasing.memo_of_find? (find?_aliasAt (hbook.column column h))

theorem label_canonical (h : plan.Named names column) :
    book.label (plan.canonical column) = book.label column := by
  refine hbook.sound.alias_eq (find?_aliasAt (hbook.column _ h.canonical))
    (find?_aliasAt (hbook.column _ h)) ?_
  rw [Plan.ownKey, Plan.ownKey, plan.canonical_canonical]

theorem canonical_eq_of_label_eq (htokens : plan.TokensDistinct) (h : plan.Named names column)
    (h' : plan.Named names column')
    (heq : book.label column = book.label column') :
    plan.canonical column = plan.canonical column' := by
  refine htokens.canonical_eq (hbook.sound.ownKey_eq _ _ _ (find?_aliasAt (hbook.column _ h)) ?_)
  rw [← label, heq]
  exact find?_aliasAt (hbook.column _ h')

theorem nodup_labels (htokens : plan.TokensDistinct) {columns : List ColumnId}
    (hnamed : ∀ column ∈ columns, plan.Named names column)
    (hnodup : (columns.map plan.canonical).Nodup) :
    (columns.map book.label).Nodup := by
  refine List.Nodup.map_on (fun column hc column' hc' heq => ?_) hnodup.of_map
  exact List.inj_on_of_nodup_map hnodup hc hc'
    (hbook.canonical_eq_of_label_eq htokens (hnamed _ hc) (hnamed _ hc') heq)

theorem label_select_ne (h : select < plan.selects.size) (h' : select' < plan.selects.size)
    (hne : plan.ownKey (.select select) ≠ plan.ownKey (.select select')) :
    book.aliasAt (.select select) ≠ book.aliasAt (.select select') := fun heq => by
  refine hne (hbook.sound.ownKey_eq _ _ _ (find?_aliasAt (hbook.select _ h)) ?_)
  rw [heq]
  exact find?_aliasAt (hbook.select _ h')

end Settled

end AliasBook

end FlatAggregate
