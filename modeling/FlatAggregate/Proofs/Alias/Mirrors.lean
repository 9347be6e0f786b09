import FlatAggregate.Proofs.Alias.Programs
import Mathlib.Logic.Equiv.Basic

/-!
# Programs with two books

Two books of one plan may give a key different aliases, but both tell the same keys apart. So some
permutation of all texts takes the alias of every key from the one book to the other
(`AliasBook.Sound.exists_perm`).

Programs that meet only keys with aliases already are compared with two such books. They mirror each
other when they fail with the same error or their results differ by such a respelling
(`Aliasing.Mirrors`); this is kept by all that programs are made of.
-/

namespace FlatAggregate

variable {T C α β γ δ : Type}

/-- A permutation can be found that has given values, if these are as different as their
arguments. -/
theorem exists_perm_of_pairs [DecidableEq α] {pairs : List (α × α)}
    (h : ∀ pair ∈ pairs, ∀ other ∈ pairs, pair.1 = other.1 ↔ pair.2 = other.2) :
    ∃ perm : Equiv.Perm α, ∀ pair ∈ pairs, perm pair.1 = pair.2 := by
  induction pairs with
  | nil => exact ⟨.refl α, by simp⟩
  | cons first rest ih =>
      obtain ⟨perm, hperm⟩ := ih fun pair hp other ho =>
        h pair (List.mem_cons_of_mem _ hp) other (List.mem_cons_of_mem _ ho)
      -- the value of the first argument changes places with the one that it shall have
      refine ⟨perm.trans (Equiv.swap (perm first.1) first.2), fun pair hpair => ?_⟩
      rw [Equiv.trans_apply]
      have hiff := h pair hpair first List.mem_cons_self
      by_cases heq : pair.1 = first.1
      · rw [heq, Equiv.swap_apply_left, hiff.mp heq]
      · obtain hfirst | hrest := List.mem_cons.mp hpair
        · exact absurd (congrArg Prod.fst hfirst) heq
        · have hne : pair.2 ≠ first.2 := fun hsnd => heq (hiff.mpr hsnd)
          have hvalue : perm pair.1 ≠ perm first.1 := fun hval => heq (perm.injective hval)
          rw [hperm pair hrest] at hvalue ⊢
          exact Equiv.swap_apply_of_ne_of_ne hvalue hne

namespace AliasBook

variable [DecidableEq T] [DecidableEq C] {book other later last : AliasBook T C} {plan : Plan T C}

/-- A respelling takes the alias that a key has in one book to the one that it has in another. -/
def Carries (respell : String → String) (book other : AliasBook T C) : Prop :=
  ∀ key aliasName name, book.find? key = some aliasName → other.find? key = some name →
    respell aliasName = name

theorem mem_keys_of_find? {key : AliasKey T C} {aliasName : String}
    (h : book.find? key = some aliasName) : key ∈ book.entries.map Prod.fst := by
  obtain ⟨front, rest, heq, -⟩ := List.lookup_eq_some_iff.mp h
  rw [heq]
  simp

theorem Sound.exists_perm (hbook : book.Sound plan) (hother : other.Sound plan) :
    ∃ respell : Equiv.Perm String, Carries respell book other := by
  let shared (key : AliasKey T C) : Option (String × String) := do
    return (← book.find? key, ← other.find? key)
  have hshared : ∀ key pair, shared key = some pair →
      book.find? key = some pair.1 ∧ other.find? key = some pair.2 := by
    intro key pair h
    obtain ⟨aliasName, hfind, h⟩ := Option.bind_eq_some_iff.mp h
    obtain ⟨name, hfind', h⟩ := Option.bind_eq_some_iff.mp h
    obtain rfl := Option.some.inj h
    exact ⟨hfind, hfind'⟩
  let pairs := (book.entries.map Prod.fst).filterMap shared
  have hpairs : ∀ pair ∈ pairs, ∀ pair' ∈ pairs, pair.1 = pair'.1 ↔ pair.2 = pair'.2 := by
    intro pair hpair pair' hpair'
    obtain ⟨key, -, hkey⟩ := List.mem_filterMap.mp hpair
    obtain ⟨key', -, hkey'⟩ := List.mem_filterMap.mp hpair'
    obtain ⟨hfind, hfindOther⟩ := hshared key pair hkey
    obtain ⟨hfind', hfindOther'⟩ := hshared key' pair' hkey'
    constructor
    · intro heq
      exact hother.alias_eq hfindOther hfindOther'
        (hbook.ownKey_eq key key' pair.1 hfind (heq ▸ hfind'))
    · intro heq
      exact hbook.alias_eq hfind hfind'
        (hother.ownKey_eq key key' pair.2 hfindOther (heq ▸ hfindOther'))
  obtain ⟨respell, hrespell⟩ := exists_perm_of_pairs hpairs
  refine ⟨respell, fun key aliasName name hfind hfind' => ?_⟩
  refine hrespell (aliasName, name) (List.mem_filterMap.mpr ⟨key, mem_keys_of_find? hfind, ?_⟩)
  simp [shared, hfind, hfind']

end AliasBook

namespace Aliasing

variable [DecidableEq T] [DecidableEq C] {names : NameSource T C} {plan : Plan T C}
  {book other : AliasBook T C} {respell : String → String}

/-- If two computations leave their books as they are, the second has the result of the first in
another spelling, and the result of the first has a property. -/
def Mirrors (book other : AliasBook T C) (spell : α → β) (P : α → Prop) (m : Aliasing T C α)
    (m' : Aliasing T C β) : Prop :=
  (m.on book).2 = book → (m'.on other).2 = other →
    (m'.on other).1 = (m.on book).1.map spell ∧ ∀ x, (m.on book).1 = .ok x → P x

section Mirrors

variable {spell : α → β} {P : α → Prop} {m : Aliasing T C α} {m' : Aliasing T C β}

section Basic

omit [DecidableEq T] [DecidableEq C]

theorem mirrors_pure (spell : α → β) {x : α} (h : P x) :
    Mirrors book other spell P (pure x) (pure (spell x) : Aliasing T C β) :=
  fun _ _ => ⟨rfl, fun _ hy => Except.ok.inj hy ▸ h⟩

theorem mirrors_lift_bind {spell' : γ → δ} {Q : γ → Prop} {result : Except NamingError α}
    {result' : Except NamingError β} {f : α → Aliasing T C γ} {f' : β → Aliasing T C δ}
    (h : result' = result.map spell)
    (hf : ∀ x, Mirrors book other spell' Q (f x) (f' (spell x))) :
    Mirrors book other spell' Q (liftM result >>= f) (liftM result' >>= f') := by
  subst h
  cases result with
  | error error => exact fun _ _ => ⟨rfl, fun x hx => by cases hx⟩
  | ok x => exact hf x

end Basic

variable (hbook : book.Issued names plan) (hother : other.Issued names plan)

include hbook hother

theorem Mirrors.bind {spell' : γ → δ} {Q : γ → Prop} {f : α → Aliasing T C γ}
    {f' : β → Aliasing T C δ} (h : Mirrors book other spell P m m') (hm : Asks names plan m)
    (hm' : Asks names plan m') (hf : ∀ x, Asks names plan (f x))
    (hf' : ∀ y, Asks names plan (f' y))
    (hfs : ∀ x, P x → Mirrors book other spell' Q (f x) (f' (spell x))) :
    Mirrors book other spell' Q (m >>= f) (m' >>= f') := by
  intro hquiet hquiet'
  obtain ⟨hfirst, hrest⟩ := hm.quiet_of_bind hf hbook hquiet
  obtain ⟨hfirst', hrest'⟩ := hm'.quiet_of_bind hf' hother hquiet'
  obtain ⟨hresult, hP⟩ := h hfirst hfirst'
  cases hon : m.on book with
  | mk result later =>
    cases hon' : m'.on other with
    | mk result' later' =>
      rw [hon] at hfirst hrest hresult hP
      rw [hon'] at hfirst' hrest' hresult
      obtain rfl : later = book := hfirst
      obtain rfl : later' = other := hfirst'
      cases result with
      | error error =>
          obtain rfl : result' = .error error := hresult
          rw [on_bind, on_bind, hon, hon']
          exact ⟨rfl, fun x hx => by cases hx⟩
      | ok x =>
          obtain rfl : result' = .ok (spell x) := hresult
          rw [on_bind_ok hon, on_bind_ok hon']
          exact hfs x (hP x rfl) (hrest x rfl) (hrest' _ rfl)

theorem mirrors_mapM (spell : α → β) {f : γ → Aliasing T C α} {f' : γ → Aliasing T C β}
    {items : List γ} (hf : ∀ item, Asks names plan (f item))
    (hf' : ∀ item, Asks names plan (f' item))
    (h : ∀ item, Mirrors book other spell (fun _ => True) (f item) (f' item)) :
    Mirrors book other (List.map spell) (fun _ => True) (items.mapM f) (items.mapM f') := by
  induction items with
  | nil =>
      rw [List.mapM_nil, List.mapM_nil]
      exact mirrors_pure (List.map spell) trivial
  | cons item items ih =>
      rw [List.mapM_cons, List.mapM_cons]
      refine (h item).bind hbook hother (hf item) (hf' item)
        (fun _ => (Asks.mapM hf).bind fun _ => Asks.pure _)
        (fun _ => (Asks.mapM hf').bind fun _ => Asks.pure _) fun x _ => ?_
      exact ih.bind hbook hother (Asks.mapM hf) (Asks.mapM hf') (fun _ => Asks.pure _)
        (fun _ => Asks.pure _) fun xs _ => mirrors_pure (List.map spell) trivial

/-- A key is refused with the same error, or its aliases differ by the respelling. -/
theorem mirrors_ask (hcarries : book.Carries respell other) (key : AliasKey T C) :
    Mirrors book other respell (fun aliasName => book.find? key = some aliasName)
      (aliasOf names plan key) (aliasOf names plan key) := by
  intro hquiet hquiet'
  have hanswers : Answers names plan key (aliasOf names plan key) := answers_aliasOf key
  cases hkey : plan.refusal names key with
  | some error =>
      rw [hanswers.refused book error hbook hkey, hanswers.refused other error hother hkey]
      exact ⟨rfl, fun x hx => by cases hx⟩
  | none =>
      obtain ⟨aliasName, later, hon, -, hfind⟩ := hanswers.given book hbook hkey
      obtain ⟨name, later', hon', -, hfind'⟩ := hanswers.given other hother hkey
      rw [hon] at hquiet ⊢
      rw [hon'] at hquiet' ⊢
      obtain rfl : later = book := hquiet
      obtain rfl : later' = other := hquiet'
      exact ⟨congrArg Except.ok (hcarries key aliasName name hfind hfind').symm,
        fun x hx => Except.ok.inj hx ▸ hfind⟩

theorem mirrors_select (hcarries : book.Carries respell other) (select : SelectId) :
    Mirrors book other respell (fun aliasName => book.find? (.select select) = some aliasName)
      (Aliasing.select names plan select) (Aliasing.select names plan select) :=
  mirrors_ask hbook hother hcarries (.select select)

theorem mirrors_column (hcarries : book.Carries respell other) (column : ColumnId) :
    Mirrors book other respell (fun aliasName => book.find? (.column column) = some aliasName)
      (Aliasing.column names plan column) (Aliasing.column names plan column) :=
  mirrors_ask hbook hother hcarries (.column column)

end Mirrors

end Aliasing

end FlatAggregate
