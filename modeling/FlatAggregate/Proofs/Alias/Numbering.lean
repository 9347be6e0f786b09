import FlatAggregate.Proofs.Alias.Steps

/-!
# The numbers of aliases

In a book that was only asked for aliases, the keys of each kind have the numbers 1, 2, 3, ... in
the order in which they were entered, and the counter of the kind is their number
(`AliasBook.Numbered`). This is kept whatever is asked, also if the answer is an error
(`Aliasing.Asks.numbered`).

`Settings.aliasText` is the text of the alias with a given number, and `entriesOf` lists the entries
of the keys of one kind in their order. Keys that take over an alias are of no kind here.
-/

namespace FlatAggregate

variable {T C : Type}

def Settings.aliasText (settings : Settings) (kind : Alias.Kind) (number : Nat) (name : String) :
    String :=
  Alias.text kind.letters number settings.counterWidth
    (if settings.hints then Alias.hint name settings.maxHintLength else "")

namespace AliasBook

variable (names : NameSource T C) (plan : Plan T C)

def entriesOf (book : AliasBook T C) (kind : Alias.Kind) : List (AliasKey T C × String) :=
  book.entries.filter fun entry => (plan.issued? names entry.1).map Prod.fst = some kind

/-- The keys of each kind are numbered from one on without gaps, in the order of their entries. -/
structure Numbered (settings : Settings) (book : AliasBook T C) : Prop where
  settings_eq : book.settings = settings
  counter_eq : ∀ kind, book.counters.get kind = (book.entriesOf names plan kind).length
  text_eq : ∀ kind position key text,
    (book.entriesOf names plan kind)[position]? = some (key, text) →
    ∃ name, plan.issued? names key = some (kind, name) ∧
      text = settings.aliasText kind (position + 1) name

variable {names plan} {book : AliasBook T C} {settings : Settings} {key : AliasKey T C}
  {aliasName : String}

theorem issue_eq (book : AliasBook T C) (kind : Alias.Kind) (name : String) :
    book.issue kind name =
      (book.settings.aliasText kind (book.counters.get kind + 1) name,
        { book with counters := book.counters.next kind }) := by
  rw [issue, Alias.Counters.get_next, if_pos rfl]
  rfl

theorem numbered_empty (names : NameSource T C) (plan : Plan T C) (settings : Settings) :
    ({ settings } : AliasBook T C).Numbered names plan settings where
  settings_eq := rfl
  counter_eq kind := by cases kind <;> rfl
  text_eq kind position key text h := by simp [entriesOf] at h

theorem entriesOf_enter (book : AliasBook T C) (key : AliasKey T C) (aliasName : String)
    (kind : Alias.Kind) :
    (book.enter key aliasName).entriesOf names plan kind = book.entriesOf names plan kind ++
      if (plan.issued? names key).map Prod.fst = some kind then [(key, aliasName)] else [] := by
  rw [entriesOf, enter, List.filter_append, List.filter_singleton, Bool.cond_decide]
  rfl

/-- A key that takes the alias of another key does not count. -/
theorem Numbered.enter (h : book.Numbered names plan settings)
    (hkey : plan.issued? names key = none) :
    (book.enter key aliasName).Numbered names plan settings := by
  have hentries : ∀ kind, (book.enter key aliasName).entriesOf names plan kind =
      book.entriesOf names plan kind := fun kind => by
    rw [entriesOf_enter, hkey]
    exact List.append_nil _
  constructor
  · exact h.settings_eq
  · intro kind
    rw [hentries]
    exact h.counter_eq kind
  · intro kind position other text hother
    rw [hentries] at hother
    exact h.text_eq kind position other text hother

/-- A new alias has the number after those of its kind. -/
theorem Numbered.enter_issue (h : book.Numbered names plan settings) {kind : Alias.Kind}
    {name : String} (hkey : plan.issued? names key = some (kind, name)) :
    ((book.issue kind name).2.enter key (book.issue kind name).1).Numbered names plan settings := by
  have hentries : ∀ other, ((book.issue kind name).2.enter key (book.issue kind name).1).entriesOf
      names plan other = book.entriesOf names plan other ++
        if other = kind then [(key, (book.issue kind name).1)] else [] := fun other => by
    rw [entriesOf_enter, hkey, Option.map_some]
    simp only [Option.some.injEq, eq_comm]
    rfl
  constructor
  · exact h.settings_eq
  · intro other
    rw [hentries, List.length_append, ← h.counter_eq other, issue_eq]
    change (book.counters.next kind).get other = _
    rw [Alias.Counters.get_next]
    split <;> simp [*]
  · intro other position key' text hother
    rw [hentries] at hother
    split at hother
    · subst other
      rcases Nat.lt_or_ge position (book.entriesOf names plan kind).length with hlt | hge
      · rw [List.getElem?_append_left hlt] at hother
        exact h.text_eq kind position key' text hother
      · rw [List.getElem?_append_right hge, List.getElem?_singleton] at hother
        split at hother
        · obtain ⟨rfl, rfl⟩ := Prod.mk.inj (Option.some.inj hother)
          refine ⟨name, hkey, ?_⟩
          have hposition : position = book.counters.get kind := by
            rw [h.counter_eq]
            omega
          rw [issue_eq, h.settings_eq, hposition]
        · cases hother
    · rw [List.append_nil] at hother
      exact h.text_eq other position key' text hother

end AliasBook

theorem Aliasing.Asks.numbered {α : Type} [DecidableEq T] [DecidableEq C] {names : NameSource T C}
    {plan : Plan T C} {m : Aliasing T C α} (hm : Asks names plan m) (settings : Settings) :
    Keeps (AliasBook.Numbered names plan settings) m :=
  hm.keeps fun book key later hstep hbook => by
    cases hstep with
    | delegated hkey => exact hbook.enter hkey
    | issued hkey => exact hbook.enter_issue hkey

end FlatAggregate
