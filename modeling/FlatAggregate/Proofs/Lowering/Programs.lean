import FlatAggregate.Proofs.Alias.Programs
import FlatAggregate.Proofs.Lowering.Statements

/-!
# Lowering as a program that asks

Lowering does nothing to the book but ask for aliases, on whatever plan. So in a session, where one
asks for aliases and for the query in any order, the query is always the same, be it an error, and
an alias once given is kept (`Lowering.query_repeats`).

`respond` serves the requests of such a session: the alias of a key or the query. The loops of the
lowering are written out as programs on one column each (`selectItem`, `shownColumn`, `orderItem`),
so that the induction over a list of columns meets the same program at every step.
-/

namespace FlatAggregate.Lowering

open Aliasing

variable {T C : Type} [DecidableEq T] [DecidableEq C] (names : NameSource T C) (plan : Plan T C)

def selectItem (scope : Scope) (column : ColumnId) : Aliasing T C SelectItem :=
  match scope.find? (plan.canonical column) with
  | some ⟨expr, true⟩ => return ⟨expr, none⟩
  | _ => do
    let expr ← liftM (plan.expression scope column)
    return ⟨expr, some (← Aliasing.column names plan column)⟩

def shownColumn (aliasName : String) (column : ColumnId) : Aliasing T C (ColumnId × Exposure) := do
  let name ← Aliasing.column names plan column
  return (plan.canonical column, ⟨.property aliasName name, true⟩)

def orderItem (column : ColumnId) : Aliasing T C OrderItem := do
  return ⟨.aliasRef (← Aliasing.column names plan column), .ascending⟩

def ordered (result : Statement) : Aliasing T C Statement :=
  match plan.selects[plan.root]? with
  | some (.join join) => do
    let orderBy ← (join.identity ++ [join.rowNumber]).mapM (orderItem names plan)
    return { result with orderBy }
  | _ => return result

theorem asks_tableSource (select : SelectId) (scan : TableScan T) :
    Asks names plan (tableSource names plan select scan) :=
  (Asks.select select).bind fun _ => (Asks.lift _).bind fun _ => (Asks.lift _).bind fun _ =>
    Asks.pure _

theorem asks_selectItem (scope : Scope) (column : ColumnId) :
    Asks names plan (selectItem names plan scope column) := by
  rw [selectItem]
  split
  · exact Asks.pure _
  · exact (Asks.lift _).bind fun _ => (Asks.column column).bind fun _ => Asks.pure _

theorem asks_selectItems (scope : Scope) (columns : List ColumnId) :
    Asks names plan (selectItems names plan scope columns) :=
  Asks.mapM (asks_selectItem names plan scope)

theorem asks_shownColumn (aliasName : String) (column : ColumnId) :
    Asks names plan (shownColumn names plan aliasName column) :=
  (Asks.column column).bind fun _ => Asks.pure _

theorem asks_orderItem (column : ColumnId) : Asks names plan (orderItem names plan column) :=
  (Asks.column column).bind fun _ => Asks.pure _

theorem asks_subquerySource (select : SelectId) (query : Statement) :
    Asks names plan (subquerySource names plan select query) :=
  (Asks.select select).bind fun aliasName =>
    (Asks.mapM (asks_shownColumn names plan aliasName)).bind fun _ => Asks.pure _

theorem asks_tableLevel (columns : List ColumnId) (source : Source × Scope) :
    Asks names plan (tableLevel names plan columns source) :=
  (asks_selectItems names plan _ _).bind fun _ => Asks.pure _

theorem asks_joinLevel (join : PlanJoin) (parent child : Source × Scope) :
    Asks names plan (joinLevel names plan join parent child) :=
  (Asks.lift _).bind fun _ => (asks_selectItems names plan _ _).bind fun _ => Asks.pure _

theorem asks_statement (select : SelectId) : Asks names plan (statement names plan select) := by
  induction select using Nat.strongRecOn with
  | ind select ih =>
    have hlower : ∀ p, Asks names plan (earlier select (fun p _ => statement names plan p)
        (throw (.unknownTable (toString select))) p) := by
      intro p
      by_cases hlt : p < select
      · simp only [earlier, dif_pos hlt]
        exact ih p hlt
      · simp only [earlier, dif_neg hlt]
        exact Asks.throw _
    rw [statement]
    cases plan.selects[select]? with
    | none => exact Asks.throw _
    | some definition =>
        cases definition with
        | scan scan =>
            exact (asks_tableSource names plan select scan).bind (asks_tableLevel names plan _)
        | view table rowNumber =>
            dsimp only
            cases plan.scanAt table with
            | none => exact Asks.throw _
            | some scan =>
                exact (asks_tableSource names plan table scan).bind (asks_tableLevel names plan _)
        | join join =>
            have hchild : ∀ parent : Source × Scope, Asks names plan (do
                let child ← subquerySource names plan join.child (← earlier select
                  (fun p _ => statement names plan p) (throw (.unknownTable (toString select)))
                  join.child)
                joinLevel names plan join parent child) := fun parent =>
              (hlower join.child).bind fun query =>
                (asks_subquerySource names plan _ query).bind
                  (asks_joinLevel names plan join parent)
            dsimp only
            cases plan.scanAt join.parent with
            | some scan => exact (asks_tableSource names plan _ scan).bind hchild
            | none =>
                exact (hlower join.parent).bind fun query =>
                  (asks_subquerySource names plan _ query).bind hchild

theorem asks_queriedSource (select : SelectId) :
    Asks names plan (queriedSource names plan select) :=
  (asks_statement names plan select).bind (asks_subquerySource names plan select)

theorem asks_parentSource (select : SelectId) :
    Asks names plan (parentSource names plan select) := by
  rw [parentSource]
  split
  · exact asks_tableSource names plan select _
  · exact asks_queriedSource names plan select

theorem asks_ordered (result : Statement) : Asks names plan (ordered names plan result) := by
  rw [ordered]
  split
  · exact (Asks.mapM (asks_orderItem names plan)).bind fun _ => Asks.pure _
  · exact Asks.pure _

theorem asks_query : Asks names plan (query names plan) :=
  (asks_statement names plan plan.root).bind (asks_ordered names plan)

inductive Request (T C : Type) where
  | aliasOf (key : AliasKey T C)
  | query

inductive Answer where
  | aliasName (text : String)
  | statement (statement : Statement)

def respond : Request T C → Aliasing T C Answer
  | .aliasOf key => do return .aliasName (← Aliasing.aliasOf names plan key)
  | .query => do return .statement (← query names plan)

theorem asks_respond (request : Request T C) : Asks names plan (respond names plan request) := by
  cases request with
  | aliasOf key => exact (Asks.ask key).bind fun _ => Asks.pure _
  | query => exact (asks_query names plan).bind fun _ => Asks.pure _

variable {names plan}

theorem on_respond_aliasOf (key : AliasKey T C) (book : AliasBook T C) :
    (respond names plan (.aliasOf key)).on book =
      (((Aliasing.aliasOf names plan key).on book).1.map .aliasName,
        ((Aliasing.aliasOf names plan key).on book).2) := by
  rw [respond, on_bind]
  cases (Aliasing.aliasOf names plan key).on book with
  | mk result later => cases result <;> rfl

theorem on_respond_query (book : AliasBook T C) :
    (respond names plan .query).on book =
      (((query names plan).on book).1.map .statement, ((query names plan).on book).2) := by
  rw [respond, on_bind]
  cases (query names plan).on book with
  | mk result later => cases result <;> rfl

theorem respond_of_find? {key : AliasKey T C} {text : String} {book : AliasBook T C}
    (h : book.find? key = some text) :
    ((respond names plan (.aliasOf key)).on book).1 = .ok (.aliasName text) := by
  have hanswers : Answers names plan key (Aliasing.aliasOf names plan key) := answers_aliasOf key
  rw [on_respond_aliasOf, hanswers.found book text h]
  rfl

theorem find?_of_respond {key : AliasKey T C} {text : String} {book : AliasBook T C}
    (hbook : book.Issued names plan)
    (h : ((respond names plan (.aliasOf key)).on book).1 = .ok (.aliasName text)) :
    ((respond names plan (.aliasOf key)).on book).2.find? key = some text := by
  rw [on_respond_aliasOf] at h ⊢
  refine find?_of_aliasOf hbook ?_
  cases hresult : ((Aliasing.aliasOf names plan key).on book).1 with
  | ok given =>
      rw [hresult] at h
      rw [Answer.aliasName.inj (Except.ok.inj h)]
  | error error =>
      rw [hresult] at h
      cases h

variable (names plan)

/-- Queries are repeatable. In a session with any requests, all queries have one and the same
result, whether the names know all tables or not, and from the second query on they leave the book
as it is; a key that is given an alias has it in the book afterwards, and a key that has an alias in
the book is given the same one ever after. -/
theorem query_repeats (settings : Settings) (requests : List (Request T C)) :
    let answers := (inTurn (respond names plan) requests { settings }).1
    let book (n : Nat) := (inTurn (respond names plan) (requests.take n) { settings }).2
    (∃ result : Except NamingError Statement, ∀ i : Nat, requests[i]? = some .query →
      answers[i]? = some (result.map .statement)) ∧
    (∀ i j : Nat, i < j → requests[i]? = some .query → requests[j]? = some .query →
      book (j + 1) = book j) ∧
    (∀ (i : Nat) (key : AliasKey T C) (text : String), requests[i]? = some (.aliasOf key) →
      answers[i]? = some (.ok (.aliasName text)) → (book (i + 1)).find? key = some text) ∧
    ∀ (i j : Nat) (key : AliasKey T C) (text : String), i ≤ j →
      (book i).find? key = some text → requests[j]? = some (.aliasOf key) →
      answers[j]? = some (.ok (.aliasName text)) := by
  intro answers book
  have hasks := asks_respond names plan
  have hempty := AliasBook.issued_empty names plan settings
  have hbook : ∀ n, (book n).Issued names plan := fun n => (inTurn_leads hasks _ hempty).issued
  refine ⟨?_, ?_, ?_, ?_⟩
  · refine ⟨((query names plan).on (inTurn (respond names plan) requests { settings }).2).1,
      fun i hi => ?_⟩
    rw [show answers = _ from (inTurn_eq hasks requests hempty).2, List.getElem?_map, hi,
      Option.map_some, on_respond_query]
  · intro i j hlt hi hj
    have hmem : Request.query ∈ requests.take j :=
      List.mem_of_getElem? ((List.getElem?_take_of_lt hlt).trans hi)
    exact (inTurn_take_succ hj).trans ((inTurn_eq hasks _ hempty).1 _ hmem)
  · intro i key text hi htext
    rw [show answers[i]? = _ from getElem?_inTurn hi] at htext
    rw [show book (i + 1) = _ from inTurn_take_succ hi]
    exact find?_of_respond (hbook i) (Option.some.inj htext)
  · intro i j key text hle hfind hj
    have hfound := (inTurn_take_leads hasks requests hempty hle).keeps key text hfind
    rw [show answers[j]? = _ from getElem?_inTurn hj, respond_of_find? hfound]

end FlatAggregate.Lowering
