import FlatAggregate.Alias.Book
import FlatAggregate.Proofs.Alias.Spelling

/-!
# The entries of an alias book

Every key has an own key, the one whose alias it bears: a scan that of its table, a base column that
of its token, a derived column that of the column that it shows again. In a sound book two keys have
the same alias exactly when they have the same own key. A new alias differs from all earlier ones
because its number is higher than theirs.

A later book has all aliases of an earlier one (`AliasBook.Extends`), and entering keys only makes
books later.
-/

namespace FlatAggregate

variable {T C : Type}

/-- The key whose alias a key bears. -/
def Plan.ownKey (plan : Plan T C) : AliasKey T C → AliasKey T C
  | .table table => .table table
  | .token token => .token token
  | .select select =>
    match plan.selects[select]? with
    | some (.scan scan) => .table scan.table
    | _ => .select select
  | .column column =>
    match plan.columns[plan.canonical column]? with
    | some (.base token) => .token token
    | _ => .column (plan.canonical column)

namespace AliasBook

variable [DecidableEq T] [DecidableEq C] {book later last : AliasBook T C} {plan : Plan T C}
  {key other : AliasKey T C} {aliasName : String}

def Extends (book later : AliasBook T C) : Prop :=
  ∀ key aliasName, book.find? key = some aliasName → later.find? key = some aliasName

/-- Aliases are texts with numbers up to the counters; a key has the alias of its own key, and keys
with the same alias have the same own key. -/
structure Sound (plan : Plan T C) (book : AliasBook T C) : Prop where
  numbered : ∀ key aliasName, book.find? key = some aliasName →
    ∃ (kind : Alias.Kind) (n : Nat) (hint : String), n ≤ book.counters.get kind ∧
      aliasName = Alias.text kind.letters n book.settings.counterWidth hint
  shared : ∀ key aliasName, book.find? key = some aliasName →
    book.find? (plan.ownKey key) = some aliasName
  ownKey_eq : ∀ key other aliasName, book.find? key = some aliasName →
    book.find? other = some aliasName → plan.ownKey key = plan.ownKey other

theorem Extends.refl (book : AliasBook T C) : book.Extends book := fun _ _ h => h

theorem Extends.trans (h : book.Extends later) (h' : later.Extends last) : book.Extends last :=
  fun key aliasName hfind => h' key aliasName (h key aliasName hfind)

theorem find?_enter (book : AliasBook T C) (key other : AliasKey T C) (aliasName : String) :
    (book.enter key aliasName).find? other =
      (book.find? other).or (if other = key then some aliasName else none) := by
  rw [find?, enter, List.lookup_append, List.lookup_cons, List.lookup_nil]
  by_cases h : other = key
  · simp [h, find?]
  · simp [h, find?, beq_eq_false_iff_ne.mpr h]

theorem extends_enter (book : AliasBook T C) (key : AliasKey T C) (aliasName : String) :
    book.Extends (book.enter key aliasName) := by
  intro other name h
  rw [find?_enter, h, Option.some_or]

theorem find?_enter_self (h : book.find? key = none) :
    (book.enter key aliasName).find? key = some aliasName := by
  rw [find?_enter, h, Option.none_or, if_pos rfl]

theorem find?_of_enter {name : String}
    (h : (book.enter key aliasName).find? other = some name) :
    book.find? other = some name ∨ other = key ∧ name = aliasName := by
  rw [find?_enter, Option.or_eq_some_iff] at h
  rcases h with h | ⟨-, h⟩
  · exact .inl h
  · split at h
    · exact .inr ⟨‹_›, (Option.some.inj h).symm⟩
    · cases h

theorem sound_empty (plan : Plan T C) (settings : Settings) :
    ({ settings } : AliasBook T C).Sound plan where
  numbered key aliasName h := by cases h
  shared key aliasName h := by cases h
  ownKey_eq key other aliasName h := by cases h

/-- In a sound book, keys with the same own key have the same alias. -/
theorem Sound.alias_eq (hbook : book.Sound plan) {name : String}
    (h : book.find? key = some aliasName) (h' : book.find? other = some name)
    (heq : plan.ownKey key = plan.ownKey other) : aliasName = name := by
  have hown := hbook.shared key aliasName h
  rw [heq, hbook.shared other name h'] at hown
  exact (Option.some.inj hown).symm

/-- A key may be entered with the alias of a key that has the same own key. -/
theorem Sound.enter_shared (hbook : book.Sound plan) (h : book.find? other = some aliasName)
    (heq : plan.ownKey other = plan.ownKey key) : (book.enter key aliasName).Sound plan where
  numbered asked name hfind := by
    rcases find?_of_enter hfind with hfind | ⟨-, rfl⟩
    · exact hbook.numbered asked name hfind
    · exact hbook.numbered other name h
  shared asked name hfind := by
    apply extends_enter
    rcases find?_of_enter hfind with hfind | ⟨rfl, rfl⟩
    · exact hbook.shared asked name hfind
    · exact heq ▸ hbook.shared other name h
  ownKey_eq asked asked' name hfind hfind' := by
    rcases find?_of_enter hfind with hold | ⟨rfl, rfl⟩ <;>
      rcases find?_of_enter hfind' with hold' | ⟨rfl, hname⟩
    · exact hbook.ownKey_eq asked asked' name hold hold'
    · exact (hbook.ownKey_eq asked other name hold (hname ▸ h)).trans heq
    · exact heq.symm.trans (hbook.ownKey_eq other asked' name h hold')
    · rfl

theorem Sound.enter_issued (hbook : book.Sound plan) (heq : plan.ownKey key = key)
    (hnone : book.find? key = none) (kind : Alias.Kind) (name : String) :
    ((book.issue kind name).2.enter key (book.issue kind name).1).Sound plan := by
  have hfind : ∀ other, (book.issue kind name).2.find? other = book.find? other := fun _ => rfl
  have hcounter : ∀ other,
      book.counters.get other ≤ (book.issue kind name).2.counters.get other := by
    intro other
    rw [issue, Alias.Counters.get_next]
    split
    · subst other
      exact Nat.le_succ _
    · exact Nat.le_refl _
  -- the number of the new alias is above all numbers in the book
  have hnew : ∀ other, book.find? other ≠ some (book.issue kind name).1 := by
    intro other hother
    obtain ⟨kind', n, hint, hn, htext⟩ := hbook.numbered other _ hother
    obtain ⟨rfl, rfl⟩ := Alias.kind_and_number_of_text htext
    rw [Alias.Counters.get_next, if_pos rfl] at hn
    exact Nat.not_succ_le_self _ hn
  constructor
  · intro asked aliasName h
    rcases find?_of_enter h with h | ⟨-, rfl⟩
    · obtain ⟨kind', n, hint, hn, htext⟩ := hbook.numbered asked aliasName h
      exact ⟨kind', n, hint, Nat.le_trans hn (hcounter kind'), htext⟩
    · exact ⟨kind, _, _, Nat.le_refl _, rfl⟩
  · intro asked aliasName h
    rcases find?_of_enter h with h | ⟨rfl, rfl⟩
    · exact extends_enter _ _ _ _ _ (hbook.shared asked aliasName h)
    · rw [heq]
      exact find?_enter_self hnone
  · intro asked asked' aliasName h h'
    rcases find?_of_enter h with hold | ⟨rfl, rfl⟩ <;>
      rcases find?_of_enter h' with hold' | ⟨rfl, hname⟩
    · exact hbook.ownKey_eq asked asked' aliasName hold hold'
    · exact absurd (hname ▸ hold) (hnew asked)
    · exact absurd hold' (hnew asked')
    · rfl

end AliasBook

end FlatAggregate
