import Mathlib
import FlatAggregate.Proofs.Alias.Answers

/-!
# Programs that ask

A program gets at the book in no other way than by asking for the aliases of keys
(`Aliasing.Asks`). With a later book it asks for the same keys and meets only aliases that it has
been given before, so it comes to the same result, be it an error, and leaves that book as it is
(`Asks.again`). In particular all answers in a run of programs are those of the book at the end
(`inTurn_eq`).

`inTurn` runs programs one after the other with one book; one that fails does not keep the next from
running, and leaves the aliases that it was given before it failed.
-/

namespace FlatAggregate.Aliasing

variable {T C α β : Type} [DecidableEq T] [DecidableEq C]

inductive Asks (names : NameSource T C) (plan : Plan T C) : {α : Type} → Aliasing T C α → Prop
  | pure {α : Type} (x : α) : Asks names plan (pure x : Aliasing T C α)
  | lift {α : Type} (result : Except NamingError α) :
    Asks names plan (liftM result : Aliasing T C α)
  | ask (key : AliasKey T C) : Asks names plan (aliasOf names plan key)
  | bind {α β : Type} {m : Aliasing T C α} {f : α → Aliasing T C β} (hm : Asks names plan m)
    (hf : ∀ x, Asks names plan (f x)) : Asks names plan (m >>= f)

namespace Asks

variable {names : NameSource T C} {plan : Plan T C} {book later : AliasBook T C}
  {m : Aliasing T C α} {f : α → Aliasing T C β}

theorem throw (error : NamingError) : Asks names plan (throw error : Aliasing T C α) :=
  lift (.error error)

theorem select (select : SelectId) : Asks names plan (Aliasing.select names plan select) :=
  ask (.select select)

theorem column (column : ColumnId) : Asks names plan (Aliasing.column names plan column) :=
  ask (.column column)

theorem mapM {f : α → Aliasing T C β} {items : List α}
    (h : ∀ item, Asks names plan (f item)) : Asks names plan (items.mapM f) := by
  induction items with
  | nil =>
      rw [List.mapM_nil]
      exact pure []
  | cons item items ih =>
      rw [List.mapM_cons]
      exact (h item).bind fun _ => ih.bind fun _ => pure _

theorem leads (h : Asks names plan m) (hbook : book.Issued names plan) :
    book.Leads names plan (m.on book).2 := by
  induction h generalizing book with
  | pure x => exact hbook.leads
  | lift result =>
      rw [on_lift]
      exact hbook.leads
  | ask key =>
      have hanswers : Answers names plan key (aliasOf names plan key) := answers_aliasOf key
      cases hkey : plan.refusal names key with
      | none =>
          obtain ⟨aliasName, later, hon, hleads, -⟩ := hanswers.given book hbook hkey
          rw [hon]
          exact hleads
      | some error =>
          rw [hanswers.refused book error hbook hkey]
          exact hbook.leads
  | @bind _ _ m f _ _ ihm ihf =>
      have hleads := ihm hbook
      rw [on_bind]
      cases hon : m.on book with
      | mk result later =>
        rw [hon] at hleads
        cases result with
        | error error => exact hleads
        | ok x => exact hleads.trans (ihf x hleads.issued)

/-- With a later book a program comes to the same result and adds nothing. -/
theorem again (h : Asks names plan m) (hbook : book.Issued names plan)
    (hlater : later.Issued names plan) (hkeeps : (m.on book).2.Extends later) :
    m.on later = ((m.on book).1, later) := by
  induction h generalizing book with
  | pure x => rfl
  | lift result => rw [on_lift, on_lift]
  | ask key =>
      have hanswers : Answers names plan key (aliasOf names plan key) := answers_aliasOf key
      cases hkey : plan.refusal names key with
      | none =>
          obtain ⟨aliasName, given, hon, -, hfind⟩ := hanswers.given book hbook hkey
          rw [hon] at hkeeps ⊢
          exact hanswers.found later aliasName (hkeeps key aliasName hfind)
      | some error =>
          rw [hanswers.refused book error hbook hkey, hanswers.refused later error hlater hkey]
  | @bind _ _ m f hm hf ihm ihf =>
      have hleads := hm.leads hbook
      have hagain := ihm hbook
      rw [on_bind] at hkeeps ⊢
      rw [on_bind]
      cases hon : m.on book with
      | mk result middle =>
        rw [hon] at hleads hagain hkeeps
        cases result with
        | error error => rw [hagain hkeeps]
        | ok x =>
            have hmiddle := ((hf x).leads hleads.issued).keeps.trans hkeeps
            rw [hagain hmiddle]
            exact ihf x hleads.issued hkeeps

/-- If a program in two parts leaves the book as it is, so do both parts. -/
theorem quiet_of_bind (hm : Asks names plan m) (hf : ∀ x, Asks names plan (f x))
    (hbook : book.Issued names plan) (h : ((m >>= f).on book).2 = book) :
    (m.on book).2 = book ∧ ∀ x, (m.on book).1 = .ok x → ((f x).on book).2 = book := by
  have hleads := hm.leads hbook
  rw [on_bind] at h
  cases hon : m.on book with
  | mk result later =>
    rw [hon] at h hleads
    cases result with
    | error error => exact ⟨h, fun x hx => by cases hx⟩
    | ok x =>
        have hback := (hf x).leads hleads.issued
        rw [h] at hback
        obtain rfl : later = book := hleads.antisymm hback
        exact ⟨rfl, fun y hy => Except.ok.inj hy ▸ h⟩

end Asks

/-- Runs programs in turn with one book, each whether or not those before it failed. -/
def inTurn {R : Type} (respond : R → Aliasing T C α) :
    List R → AliasBook T C → List (Except NamingError α) × AliasBook T C
  | [], book => ([], book)
  | request :: rest, book =>
    let (answer, later) := (respond request).on book
    let (answers, last) := inTurn respond rest later
    (answer :: answers, last)

section InTurn

variable {R : Type} {respond : R → Aliasing T C α} {names : NameSource T C} {plan : Plan T C}
  {requests : List R} {request : R} {book : AliasBook T C} {i j : Nat}

omit [DecidableEq T] [DecidableEq C]

theorem inTurn_append (first second : List R) :
    inTurn respond (first ++ second) book =
      ((inTurn respond first book).1 ++ (inTurn respond second (inTurn respond first book).2).1,
        (inTurn respond second (inTurn respond first book).2).2) := by
  induction first generalizing book with
  | nil => rfl
  | cons request rest ih => simp [inTurn, ih]

theorem length_inTurn (requests : List R) (book : AliasBook T C) :
    (inTurn respond requests book).1.length = requests.length := by
  induction requests generalizing book with
  | nil => rfl
  | cons request rest ih => simp [inTurn, ih]

theorem getElem?_inTurn (h : requests[i]? = some request) :
    (inTurn respond requests book).1[i]? =
      some ((respond request).on (inTurn respond (requests.take i) book).2).1 := by
  obtain ⟨hlt, rfl⟩ := List.getElem?_eq_some_iff.mp h
  have hsplit : requests = requests.take i ++ requests[i] :: requests.drop (i + 1) := by simp
  have hlength : (inTurn respond (requests.take i) book).1.length = i := by
    rw [length_inTurn, List.length_take, Nat.min_eq_left (Nat.le_of_lt hlt)]
  conv_lhs => rw [hsplit, inTurn_append]
  rw [List.getElem?_append_right (Nat.le_of_eq hlength), hlength, Nat.sub_self]
  rfl

theorem inTurn_take_succ (h : requests[i]? = some request) :
    (inTurn respond (requests.take (i + 1)) book).2 =
      ((respond request).on (inTurn respond (requests.take i) book).2).2 := by
  rw [List.take_add_one, h, inTurn_append]
  rfl

variable [DecidableEq T] [DecidableEq C] (h : ∀ request, Asks names plan (respond request))

include h

theorem inTurn_leads (requests : List R) (hbook : book.Issued names plan) :
    book.Leads names plan (inTurn respond requests book).2 := by
  induction requests generalizing book with
  | nil => exact hbook.leads
  | cons request rest ih =>
      have hleads := (h request).leads hbook
      exact hleads.trans (ih hleads.issued)

theorem inTurn_take_leads (requests : List R) (hbook : book.Issued names plan) (hle : i ≤ j) :
    (inTurn respond (requests.take i) book).2.Leads names plan
      (inTurn respond (requests.take j) book).2 := by
  have hsplit : requests.take j = requests.take i ++ (requests.take j).drop i := by
    rw [← Nat.min_eq_left hle, ← List.take_take, Nat.min_eq_left hle, List.take_append_drop]
  rw [hsplit, inTurn_append]
  exact inTurn_leads h _ (inTurn_leads h _ hbook).issued

/-- The book at the end of a run gives every answer again, and is left as it is. -/
theorem inTurn_eq (requests : List R) (hbook : book.Issued names plan) :
    (∀ request ∈ requests, ((respond request).on (inTurn respond requests book).2).2 =
      (inTurn respond requests book).2) ∧
    (inTurn respond requests book).1 =
      requests.map fun request => ((respond request).on (inTurn respond requests book).2).1 := by
  induction requests generalizing book with
  | nil => exact ⟨by simp, rfl⟩
  | cons request rest ih =>
      have hleads := (h request).leads hbook
      have hrest := inTurn_leads h rest hleads.issued
      have hagain := (h request).again hbook hrest.issued hrest.keeps
      obtain ⟨hquiet, hanswers⟩ := ih hleads.issued
      have hlast : (inTurn respond (request :: rest) book).2 =
          (inTurn respond rest ((respond request).on book).2).2 := rfl
      rw [hlast]
      constructor
      · intro other ho
        rcases List.mem_cons.mp ho with rfl | ho
        · rw [hagain]
        · exact hquiet other ho
      · rw [List.map_cons, hagain, ← hanswers]
        rfl

end InTurn

/-- A key that is given an alias has it in the book from then on. -/
theorem find?_of_aliasOf {names : NameSource T C} {plan : Plan T C} {key : AliasKey T C}
    {aliasName : String} {book : AliasBook T C} (hbook : book.Issued names plan)
    (h : ((aliasOf names plan key).on book).1 = .ok aliasName) :
    ((aliasOf names plan key).on book).2.find? key = some aliasName := by
  have hanswers : Answers names plan key (aliasOf names plan key) := answers_aliasOf key
  cases hkey : plan.refusal names key with
  | none =>
      obtain ⟨given, later, hon, -, hfind⟩ := hanswers.given book hbook hkey
      rw [hon] at h ⊢
      exact Except.ok.inj h ▸ hfind
  | some error =>
      rw [hanswers.refused book error hbook hkey] at h
      cases h

/-- Aliases identify objects: with any names and any settings, two keys of a run, some of which may
be refused, are given the same alias exactly if they come down to the same table, token, select or
column. -/
theorem eq_iff_ownKey_eq (names : NameSource T C) (plan : Plan T C) (settings : Settings)
    (keys : List (AliasKey T C)) {i j : Nat} {key other : AliasKey T C} {aliasName name : String}
    (hkey : keys[i]? = some key) (hother : keys[j]? = some other)
    (hi : (inTurn (aliasOf names plan) keys { settings }).1[i]? = some (.ok aliasName))
    (hj : (inTurn (aliasOf names plan) keys { settings }).1[j]? = some (.ok name)) :
    aliasName = name ↔ plan.ownKey key = plan.ownKey other := by
  have hasks : ∀ key, Asks names plan (aliasOf names plan key) := Asks.ask
  have hempty := AliasBook.issued_empty names plan settings
  have hlast := (inTurn_leads hasks keys hempty).issued
  obtain ⟨hquiet, hanswers⟩ := inTurn_eq hasks keys hempty
  -- all aliases of the run stand in the book at its end
  have hfind : ∀ {n : Nat} {asked : AliasKey T C} {text : String}, keys[n]? = some asked →
      (inTurn (aliasOf names plan) keys { settings }).1[n]? = some (.ok text) →
      (inTurn (aliasOf names plan) keys { settings }).2.find? asked = some text := by
    intro n asked text hasked htext
    rw [hanswers, List.getElem?_map, hasked] at htext
    have hfound := find?_of_aliasOf hlast (Option.some.inj htext)
    rwa [hquiet asked (List.mem_of_getElem? hasked)] at hfound
  constructor
  · rintro rfl
    exact hlast.ownKey_eq key other aliasName (hfind hkey hi) (hfind hother hj)
  · exact hlast.alias_eq (hfind hkey hi) (hfind hother hj)

/-- A parent with a child: a scan and its table, a derived column and its token, a literal, which is
refused, and a foreign key whose hint is that of the token. -/
theorem eq_iff_ownKey_eq_child :
    let parent : TableSpec String String := { table := "parent", id := some "parent_id" }
    let child : TableSpec String String := { table := "child", columns := ["value"] }
    let keys : List (AliasKey String String) :=
      [.column 9, .select 0, .column 1, .column 3, .token "parent_id", .table "parent", .select 2]
    let answers := [.ok "C0001_PARENTID", .ok "T0001_PARENT", .error (.noAlias 1),
      .ok "FK0001_PARENTID", .ok "C0001_PARENTID", .ok "T0001_PARENT", .ok "V0001"]
    ∃ plan, (JoinTree.join (.table parent) (.table child) .multiple "parent").plan = .ok plan ∧
      (inTurn (aliasOf .ofText plan) keys {}).1 = answers ∧
      ("C0001_PARENTID" = "C0001_PARENTID" ↔
        plan.ownKey (.column 9) = plan.ownKey (.token "parent_id")) ∧
      ("C0001_PARENTID" = "FK0001_PARENTID" ↔
        plan.ownKey (.column 9) = plan.ownKey (.column 3)) := by
  intro parent child keys answers
  obtain ⟨plan, hplan⟩ : ∃ plan,
      (JoinTree.join (.table parent) (.table child) .multiple "parent").plan = .ok plan := ⟨_, rfl⟩
  have hanswers : (inTurn (aliasOf .ofText plan) keys {}).1 = answers := by
    obtain rfl := Except.ok.inj hplan
    cbv
  refine ⟨plan, hplan, hanswers, ?_, ?_⟩
  · exact eq_iff_ownKey_eq .ofText plan {} keys (i := 0) (j := 4) rfl rfl
      (by rw [hanswers]; rfl) (by rw [hanswers]; rfl)
  · exact eq_iff_ownKey_eq .ofText plan {} keys (i := 0) (j := 3) rfl rfl
      (by rw [hanswers]; rfl) (by rw [hanswers]; rfl)

end FlatAggregate.Aliasing
