import FlatAggregate.Proofs.Alias.Programs

/-!
# Recalling a result

A book recalls the result of a program if the program gives it without an entry
(`AliasBook.Recalls`). The book that a program leaves behind recalls its result, and a book that
recalls the result of a program in parts recalls that of every part. So what a run from an empty
book gives is read off the book at its end, part by part, with no other books in between.
-/

namespace FlatAggregate

open Aliasing

variable {T C α β : Type}

namespace AliasBook

/-- A computation gives a result and leaves the book as it is. -/
def Recalls (book : AliasBook T C) (m : Aliasing T C α) (x : α) : Prop :=
  m.on book = (.ok x, book)

variable {book : AliasBook T C} {m : Aliasing T C α} {f : α → Aliasing T C β} {x : α} {y : β}

theorem recalls_pure {y : α} : book.Recalls (pure x) y ↔ x = y := by
  simp [Recalls]

theorem recalls_lift_bind {result : Except NamingError α}
    (h : book.Recalls (liftM result >>= f) y) : ∃ x, result = .ok x ∧ book.Recalls (f x) y := by
  cases result with
  | error error => cases h
  | ok x => exact ⟨x, rfl, h⟩

variable [DecidableEq T] [DecidableEq C] {names : NameSource T C} {plan : Plan T C}
  {key : AliasKey T C} {aliasName : String}

theorem recalls_bind (hbook : book.Issued names plan) (hm : Asks names plan m)
    (hf : ∀ x, Asks names plan (f x)) (h : book.Recalls (m >>= f) y) :
    ∃ x, book.Recalls m x ∧ book.Recalls (f x) y := by
  have hquiet := hm.quiet_of_bind hf hbook (congrArg Prod.snd h)
  rw [Recalls, on_bind] at h
  cases hon : m.on book with
  | mk result later =>
    rw [hon] at h hquiet
    obtain rfl : later = book := hquiet.1
    cases result with
    | error error => cases h
    | ok x => exact ⟨x, hon, h⟩

theorem recalls_mapM (hbook : book.Issued names plan) {items : List β} {f : β → Aliasing T C α}
    (hf : ∀ item, Asks names plan (f item)) {results : List α}
    (h : book.Recalls (items.mapM f) results) :
    List.Forall₂ (fun result item => book.Recalls (f item) result) results items := by
  induction items generalizing results with
  | nil =>
      rw [List.mapM_nil, recalls_pure] at h
      exact h ▸ .nil
  | cons item items ih =>
      rw [List.mapM_cons] at h
      obtain ⟨result, hresult, hrest⟩ :=
        recalls_bind hbook (hf item) (fun _ => (Asks.mapM hf).bind fun _ => Asks.pure _) h
      obtain ⟨others, hothers, hlist⟩ :=
        recalls_bind hbook (Asks.mapM hf) (fun _ => Asks.pure _) hrest
      rw [recalls_pure] at hlist
      exact hlist ▸ .cons hresult (ih hothers)

theorem recalls_of_on (hm : Asks names plan m) {before : AliasBook T C}
    (hbefore : before.Issued names plan) (h : m.on before = (.ok x, book)) :
    book.Issued names plan ∧ book.Recalls m x := by
  have hleads := hm.leads hbefore
  have hagain : m.on (m.on before).2 = ((m.on before).1, (m.on before).2) :=
    hm.again hbefore hleads.issued (.refl _)
  rw [h] at hleads hagain
  exact ⟨hleads.issued, hagain⟩

theorem find?_of_recalls (hbook : book.Issued names plan)
    (h : book.Recalls (aliasOf names plan key) aliasName) : book.find? key = some aliasName := by
  have hfind := find?_of_aliasOf hbook (congrArg Prod.fst h)
  rwa [congrArg Prod.snd h] at hfind

end AliasBook

end FlatAggregate
