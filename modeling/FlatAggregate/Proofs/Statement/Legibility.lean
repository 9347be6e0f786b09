import FlatAggregate.Proofs.Statement.Resolution
import FlatAggregate.Proofs.Text.Legibility
import FlatAggregate.Statement.Sql
import Mathlib

/-!
# Statements that can be read back

The text of a statement determines the statement, if all that it names has names, lists that have to
be there are not empty, conditions compare two expressions and expressions contain no comparisons
(`Statement.sql_inj`). An expression opens with a word, and the mark behind it tells what kind of
expression it is; what follows an expression never looks like its continuation.

The types each have their plain members: `Expr.Plain`, `SelectItem.Plain`, `Source.Plain`,
`Join.Plain` and `Statement.Plain`, which asks it of all levels. `Expr.opening` is the word that an
expression opens with and `Expr.closing` the text behind it.
-/

namespace FlatAggregate

open Text

namespace Expr

/-- Expressions that compare nothing, with names for all that they refer to. -/
inductive Plain : Expr → Prop
  | literal (value : Int64) : Plain (.literal value)
  | aliasRef {name : String} (hname : IsName name) : Plain (.aliasRef name)
  | property {source column : String} (hsource : IsName source) (hcolumn : IsName column) :
    Plain (.property source column)
  | call {function : String} {args : List Expr} (hfunction : IsName function)
      (hargs : ∀ arg ∈ args, Plain arg) : Plain (.call function args)
  | window {function : String} {args partitionBy : List Expr} (hfunction : IsName function)
      (hargs : ∀ arg ∈ args, Plain arg) (hpartition : ∀ key ∈ partitionBy, Plain key) :
    Plain (.window function args partitionBy)

abbrev Ends : List Char → Prop := Stops [' ', ',', ')'] [" OVER"]

def opening : Expr → String
  | literal value => toString value.toInt
  | aliasRef name => name
  | property source _ => source
  | call function _ => function
  | window function _ _ => function
  | operation _ _ => ""

def listed (args : List Expr) : List Char := (", ".intercalate (args.map sql)).toList

def partition : List Expr → List Char
  | [] => []
  | keys => "PARTITION BY ".toList ++ listed keys

def closing : Expr → List Char
  | property _ column => '.' :: column.toList
  | call _ args => '(' :: (listed args ++ [')'])
  | window _ args partitionBy =>
    '(' :: (listed args ++ (") OVER (".toList ++ (partition partitionBy ++ [')'])))
  | _ => []

variable {a b : Expr} {rest rest' : List Char}

theorem closing_call_append (function : String) (args : List Expr) (rest : List Char) :
    (call function args).closing ++ rest = '(' :: (listed args ++ ')' :: rest) := by
  simp [closing]

theorem closing_window_append (function : String) (args partitionBy : List Expr)
    (rest : List Char) : (window function args partitionBy).closing ++ rest =
      '(' :: (listed args ++
        ')' :: (" OVER (".toList ++ (partition partitionBy ++ ')' :: rest))) := by
  simp [closing]

theorem Plain.toList_sql (h : Plain a) : a.sql.toList = a.opening.toList ++ a.closing := by
  cases h with
  | literal => simp [sql, opening, closing]
  | aliasRef => simp [sql, opening, closing]
  | property => simp [sql, opening, closing]
  | call => simp [sql, opening, closing, listed]
  | @window _ _ partitionBy =>
      cases partitionBy <;> simp [sql, opening, closing, listed, partition]

section Literals

theorem digit_or_minus_of_mem {value : Int} {letter : Char} (h : letter ∈ (toString value).toList) :
    letter.isDigit ∨ letter = '-' := by
  have hdigits : ∀ n : Nat, ∀ letter ∈ n.repr.toList, letter.isDigit := fun n letter hletter =>
    Nat.isDigit_of_mem_toDigits (by decide) (by decide) (Nat.toList_repr ▸ hletter)
  rw [Int.toString_eq_repr, Int.repr_eq_if] at h
  split at h
  · exact .inl (hdigits _ letter h)
  · rw [String.toList_append, List.mem_append] at h
    rcases h with h | h
    · exact .inr (List.mem_singleton.mp h)
    · exact .inl (hdigits _ letter h)

theorem toString_ne_of_isName {value : Int} {name : String} (h : IsName name) :
    toString value ≠ name := by
  rintro rfl
  obtain ⟨letter, hhead, hdigit, hminus⟩ := h.head
  rcases digit_or_minus_of_mem (List.mem_of_mem_head? hhead) with h | h
  · exact hdigit h
  · exact hminus h

end Literals

theorem Plain.unmarked_opening (h : Plain a) : Unmarked a.opening := by
  cases h with
  | literal value =>
      intro letter hletter hmark
      rcases digit_or_minus_of_mem hletter with hdigit | rfl
      · simp only [wordMarks, List.mem_cons, List.not_mem_nil, or_false] at hmark
        rcases hmark with rfl | rfl | rfl | rfl | rfl <;> cases hdigit
      · exact absurd hmark (by decide)
  | aliasRef hname => exact hname.unmarked
  | property hsource => exact hsource.unmarked
  | call hfunction => exact hfunction.unmarked
  | window hfunction => exact hfunction.unmarked

theorem Plain.exists_cons (h : Plain a) :
    ∃ letter letters, a.sql.toList = letter :: letters ∧ letter ∉ wordMarks := by
  have hne : a.opening.toList ≠ [] := by
    cases h with
    | literal value =>
        rw [opening, Int.toString_eq_repr, Int.repr_eq_if]
        split <;> simp [Nat.toDigits_ne_nil]
    | aliasRef hname => exact hname.toList_ne_nil
    | property hsource => exact hsource.toList_ne_nil
    | call hfunction => exact hfunction.toList_ne_nil
    | window hfunction => exact hfunction.toList_ne_nil
  obtain ⟨letter, letters, hopening⟩ := List.exists_cons_of_ne_nil hne
  refine ⟨letter, letters ++ a.closing, by rw [h.toList_sql, hopening]; rfl, ?_⟩
  exact h.unmarked_opening letter (hopening ▸ List.mem_cons_self)

/-- Expressions with the same text have the same opening word and, up to the end, the same text
behind it. -/
theorem Plain.opening_closing (ha : Plain a) (hb : Plain b) (hrest : Ends rest)
    (hrest' : Ends rest') (h : a.sql.toList ++ rest = b.sql.toList ++ rest') :
    a.opening = b.opening ∧ a.closing ++ rest = b.closing ++ rest' := by
  have hstops : ∀ {c : Expr} {rest : List Char}, Plain c → Ends rest →
      Stops wordMarks [] (c.closing ++ rest) := by
    intro c rest hc hrest
    have hend : Stops wordMarks [] rest := hrest.of (by decide) (by simp)
    cases hc with
    | literal => exact hend
    | aliasRef => exact hend
    | _ => exact ⟨by simp [closing, wordMarks], by simp⟩
  rw [ha.toList_sql, hb.toList_sql, List.append_assoc, List.append_assoc] at h
  exact ha.unmarked_opening.legible _ hb.unmarked_opening _ _ (hstops ha hrest) (hstops hb hrest') h

theorem head?_closing (hrest : Ends rest) :
    (a.closing ++ rest).head?.filter (· ∈ ['.', '(']) = a.closing.head? := by
  have hnone : rest.head?.filter (· ∈ ['.', '(']) = none := by
    rw [Option.filter_eq_none_iff]
    intro letter hletter hmark
    have hend := hrest.mark letter hletter
    simp only [List.mem_cons, List.not_mem_nil, or_false] at hend
    rcases hend with rfl | rfl | rfl <;> exact absurd hmark (by decide)
  cases a with
  | property => simp [closing]
  | call => simp [closing]
  | window => simp [closing]
  | _ => exact hnone

theorem stops_parenthesis (text : List Char) : Stops [')'] [] (')' :: text) :=
  ⟨by simp, by simp⟩

theorem legible_listed {args : List Expr} (hplain : ∀ arg ∈ args, Plain arg)
    (h : ∀ arg ∈ args, Legible (fun expr => expr.sql.toList) Plain Ends arg) :
    Legible listed (∀ arg ∈ ·, Plain arg) (Stops [')'] []) args := by
  have hapart : ∀ {args : List Expr} {rest : List Char} (text : List Char), args ≠ [] →
      (∀ arg ∈ args, Plain arg) → Stops [')'] [] rest → rest ≠ listed args ++ text := by
    rintro args rest text hne hplain hrest rfl
    obtain ⟨first, others, rfl⟩ := List.exists_cons_of_ne_nil hne
    obtain ⟨letter, letters, hfirst, hmark⟩ := (hplain first List.mem_cons_self).exists_cons
    have hhead : letter ∈ [')'] := by
      apply hrest.mark
      rw [listed, toList_intercalate_cons, hfirst]
      rfl
    exact hmark (List.mem_singleton.mp hhead ▸ by decide)
  intro others hothers rest rest' hrest hrest' heq
  cases args with
  | nil =>
      cases others with
      | nil => exact ⟨rfl, heq⟩
      | cons b others => exact absurd heq (hapart _ (List.cons_ne_nil _ _) hothers hrest)
  | cons a args =>
      cases others with
      | nil => exact absurd heq.symm (hapart _ (List.cons_ne_nil _ _) hplain hrest')
      | cons b others =>
          have hlegible : Legible listed (fun args => args ≠ [] ∧ ∀ arg ∈ args, Plain arg)
              (Stops [' ', ',', ')'] [", ", " OVER"]) (a :: args) :=
            Legible.intercalate (List.cons_ne_nil a args) h (by decide)
          exact hlegible _ ⟨List.cons_ne_nil _ _, hothers⟩ _ _ (hrest.of (by decide) (by decide))
            (hrest'.of (by decide) (by decide)) heq

theorem legible_partition {keys : List Expr} (hplain : ∀ key ∈ keys, Plain key)
    (h : ∀ key ∈ keys, Legible (fun expr => expr.sql.toList) Plain Ends key) :
    Legible partition (∀ key ∈ ·, Plain key) (Stops [')'] []) keys := by
  have hwrite : ∀ keys, keys ≠ [] → partition keys = "PARTITION BY ".toList ++ listed keys := by
    intro keys hne
    cases keys with
    | nil => exact absurd rfl hne
    | cons => rfl
  have hoptional : Legible partition (∀ key ∈ ·, Plain key) (Stops [')'] ["PARTITION BY "]) keys :=
    Legible.optional rfl hwrite fun _ others hothers => legible_listed hplain h others hothers.2
  exact hoptional.mono fun rest hrest => hrest.of (by decide) (by decide)

theorem Plain.legible_of_closing (ha : Plain a)
    (h : ∀ b, Plain b → a.opening = b.opening → a.closing.head? = b.closing.head? →
      ∀ rest rest', Ends rest → Ends rest' → a.closing ++ rest = b.closing ++ rest' →
        a = b ∧ rest = rest') : Legible (fun expr => expr.sql.toList) Plain Ends a := by
  intro b hb rest rest' hrest hrest' heq
  obtain ⟨hopening, hclosing⟩ := ha.opening_closing hb hrest hrest' heq
  have hhead : a.closing.head? = b.closing.head? := by
    rw [← head?_closing hrest, ← head?_closing hrest', hclosing]
  exact h b hb hopening hhead rest rest' hrest hrest' hclosing

theorem Plain.legible (ha : Plain a) : Legible (fun expr => expr.sql.toList) Plain Ends a := by
  -- only expressions with the same mark behind the opening word are left to compare
  induction ha with
  | literal value =>
      apply (Plain.literal value).legible_of_closing
      intro b hb hopening hhead rest rest' _ _ hclosing
      cases hb with
      | literal other =>
          have hvalue : value.toInt.repr = other.toInt.repr := hopening
          rw [Int.repr_inj, Int64.toInt_inj] at hvalue
          exact ⟨by rw [hvalue], hclosing⟩
      | aliasRef hname => exact absurd hopening (toString_ne_of_isName hname)
      | _ => cases hhead
  | @aliasRef name hname =>
      apply (Plain.aliasRef hname).legible_of_closing
      intro b hb hopening hhead rest rest' _ _ hclosing
      cases hb with
      | literal => exact absurd hopening.symm (toString_ne_of_isName hname)
      | @aliasRef other =>
          obtain rfl : name = other := hopening
          exact ⟨rfl, hclosing⟩
      | _ => cases hhead
  | @property source column hsource hcolumn =>
      apply (Plain.property hsource hcolumn).legible_of_closing
      intro b hb hopening hhead rest rest' hrest hrest' hclosing
      cases hb with
      | @property other _ hother hcolumn' =>
          obtain rfl : source = other := hopening
          obtain ⟨rfl, hrests⟩ := hcolumn.legible _ hcolumn' _ _ (hrest.of (by decide) (by simp))
            (hrest'.of (by decide) (by simp)) (List.cons.inj hclosing).2
          exact ⟨rfl, hrests⟩
      | _ => cases hhead
  | @call function args hfunction hargs ih =>
      apply (Plain.call hfunction hargs).legible_of_closing
      intro b hb hopening hhead rest rest' hrest hrest' hclosing
      rw [closing_call_append] at hclosing
      cases hb with
      | @call other _ hother hargs' =>
          obtain rfl : function = other := hopening
          rw [closing_call_append] at hclosing
          obtain ⟨rfl, hrests⟩ := legible_listed hargs ih _ hargs' _ _ (stops_parenthesis _)
            (stops_parenthesis _) (List.cons.inj hclosing).2
          exact ⟨rfl, (List.cons.inj hrests).2⟩
      | window hother hargs' =>
          rw [closing_window_append] at hclosing
          obtain ⟨-, hrests⟩ := legible_listed hargs ih _ hargs' _ _ (stops_parenthesis _)
            (stops_parenthesis _) (List.cons.inj hclosing).2
          exact absurd ⟨_, (List.cons.inj hrests).2.symm⟩ (hrest.keyword " OVER" (by simp))
      | _ => cases hhead
  | @window function args keys hfunction hargs hkeys ihargs ihkeys =>
      apply (Plain.window hfunction hargs hkeys).legible_of_closing
      intro b hb hopening hhead rest rest' hrest hrest' hclosing
      rw [closing_window_append] at hclosing
      cases hb with
      | call hother hargs' =>
          rw [closing_call_append] at hclosing
          obtain ⟨-, hrests⟩ := legible_listed hargs ihargs _ hargs' _ _ (stops_parenthesis _)
            (stops_parenthesis _) (List.cons.inj hclosing).2
          exact absurd ⟨_, (List.cons.inj hrests).2⟩ (hrest'.keyword " OVER" (by simp))
      | @window other _ _ hother hargs' hkeys' =>
          obtain rfl : function = other := hopening
          rw [closing_window_append] at hclosing
          obtain ⟨rfl, hover⟩ := legible_listed hargs ihargs _ hargs' _ _ (stops_parenthesis _)
            (stops_parenthesis _) (List.cons.inj hclosing).2
          obtain ⟨rfl, hrests⟩ := legible_partition hkeys ihkeys _ hkeys' _ _ (stops_parenthesis _)
            (stops_parenthesis _) (List.append_cancel_left (List.cons.inj hover).2)
          exact ⟨rfl, (List.cons.inj hrests).2⟩
      | _ => cases hhead

end Expr

section Parts

/-- An item shows a plain expression, under a name if under any. -/
structure SelectItem.Plain (item : SelectItem) : Prop where
  expr : item.expr.Plain
  aliasName : ∀ name ∈ item.aliasName, IsName name

def Operation.Plain (operation : Operation) : Prop :=
  ∃ left right, operation.operands = [left, right] ∧ left.Plain ∧ right.Plain

def SelectItem.naming : Option String → List Char
  | none => []
  | some name => " AS ".toList ++ name.toList

theorem SelectItem.toList_sql (item : SelectItem) :
    item.sql.toList = item.expr.sql.toList ++ naming item.aliasName := by
  obtain ⟨expr, aliasName⟩ := item
  cases aliasName <;> simp [sql, naming]

theorem SelectItem.legible_naming {aliasName : Option String}
    (h : ∀ name ∈ aliasName, IsName name) :
    Legible naming (∀ name ∈ ·, IsName name) (Stops [' ', ','] [" AS "]) aliasName := by
  have hwrite : ∀ aliasName, aliasName ≠ none →
      naming aliasName = " AS ".toList ++ (aliasName.getD "").toList := by
    intro aliasName hsome
    cases aliasName with
    | none => exact absurd rfl hsome
    | some name => rfl
  apply Legible.optional rfl hwrite
  rintro hsome other ⟨hother, hnames⟩ rest rest' hrest hrest' heq
  obtain ⟨name, rfl⟩ := Option.ne_none_iff_exists'.mp hsome
  obtain ⟨name', rfl⟩ := Option.ne_none_iff_exists'.mp hother
  obtain ⟨rfl, hrests⟩ := (h name rfl).legible name' (hnames name' rfl) rest rest'
    (hrest.of (by decide) (by simp)) (hrest'.of (by decide) (by simp)) heq
  exact ⟨rfl, hrests⟩

theorem SelectItem.Plain.legible {item : SelectItem} (h : item.Plain) :
    Legible (fun item => item.sql.toList) SelectItem.Plain (Stops [' ', ','] [" AS ", " OVER"])
      item := by
  have hends : ∀ {aliasName rest}, Stops [' ', ','] [" AS ", " OVER"] rest →
      Expr.Ends (naming aliasName ++ rest) := by
    intro aliasName rest hrest
    cases aliasName with
    | none => exact hrest.of (by decide) (by decide)
    | some name =>
        rw [naming, List.append_assoc]
        exact stops_of_opens (by decide) _
  intro other hother rest rest' hrest hrest' heq
  obtain ⟨expr, aliasName⟩ := item
  obtain ⟨expr', aliasName'⟩ := other
  dsimp only at heq
  rw [toList_sql, toList_sql, List.append_assoc, List.append_assoc] at heq
  obtain ⟨rfl, hnaming⟩ := h.expr.legible _ hother.expr _ _ (hends hrest) (hends hrest') heq
  obtain ⟨rfl, hrests⟩ := legible_naming h.aliasName _ hother.aliasName _ _
    (hrest.of (by decide) (by decide)) (hrest'.of (by decide) (by decide)) hnaming
  exact ⟨rfl, hrests⟩

theorem Operation.Plain.legible {operation : Operation} (h : operation.Plain) :
    Legible (fun operation => operation.sql.toList) Operation.Plain (Stops [' ', ')'] [" OVER"])
      operation := by
  have hsql : ∀ left right : Expr, (Operation.mk .equal [left, right]).sql.toList =
      left.sql.toList ++ (" = ".toList ++ right.sql.toList) := by
    intro left right
    simp [sql, Operator.sql]
  intro other hother rest rest' hrest hrest' heq
  obtain ⟨⟨⟩, operands⟩ := operation
  obtain ⟨⟨⟩, operands'⟩ := other
  obtain ⟨left, right, rfl, hleft, hright⟩ := h
  obtain ⟨left', right', rfl, hleft', hright'⟩ := hother
  dsimp only at heq
  rw [hsql, hsql, List.append_assoc, List.append_assoc, List.append_assoc, List.append_assoc] at heq
  obtain ⟨rfl, hrights⟩ := hleft.legible _ hleft' _ _ (stops_of_opens (by decide) _)
    (stops_of_opens (by decide) _) heq
  obtain ⟨rfl, hrests⟩ := hright.legible _ hright' _ _ (hrest.of (by decide) (by decide))
    (hrest'.of (by decide) (by decide)) (List.append_cancel_left hrights)
  exact ⟨rfl, hrests⟩

theorem OrderItem.legible {item : OrderItem} (h : item.expr.Plain) :
    Legible (fun item => item.sql.toList) (·.expr.Plain) (Stops [',', ')'] []) item := by
  have hsql : ∀ item : OrderItem,
      item.sql.toList = item.expr.sql.toList ++ (" ".toList ++ item.order.sql.toList) := by
    simp [sql]
  have hends : ∀ (order : SortOrder) (rest : List Char),
      Expr.Ends (" ".toList ++ (order.sql.toList ++ rest)) := by
    intro order rest
    cases order with
    | ascending => exact stops_of_opens (by decide : opens [' ', ',', ')'] [" OVER"] " ASC") rest
    | descending => exact stops_of_opens (by decide : opens [' ', ',', ')'] [" OVER"] " DESC") rest
  intro other hother rest rest' _ _ heq
  obtain ⟨expr, order⟩ := item
  obtain ⟨expr', order'⟩ := other
  dsimp only at heq
  rw [hsql, hsql, List.append_assoc, List.append_assoc, List.append_assoc, List.append_assoc] at heq
  obtain ⟨rfl, horder⟩ := h.legible _ hother _ _ (hends order rest) (hends order' rest') heq
  have hwords := List.append_cancel_left horder
  cases order with
  | ascending =>
      cases order' with
      | ascending => exact ⟨rfl, List.append_cancel_left hwords⟩
      | descending => exact absurd (List.cons.inj hwords).1 (by decide)
  | descending =>
      cases order' with
      | ascending => exact absurd (List.cons.inj hwords).1 (by decide)
      | descending => exact ⟨rfl, List.append_cancel_left hwords⟩

theorem OrderItem.toList_clause {items : List OrderItem} (h : items ≠ []) :
    (clause items).toList = " ORDER BY ".toList ++ (", ".intercalate (items.map sql)).toList := by
  rw [clause, String.toList_append]
  exact h

theorem OrderItem.legible_clause {items : List OrderItem} (h : ∀ item ∈ items, item.expr.Plain) :
    Legible (fun items => (clause items).toList) (∀ item ∈ ·, item.expr.Plain) (Stops [')'] [])
      items := by
  have hoptional : Legible (fun items => (clause items).toList) (∀ item ∈ ·, item.expr.Plain)
      (Stops [')'] [" ORDER BY "]) items := by
    apply Legible.optional rfl fun _ => toList_clause
    intro hne
    have hlisted := Legible.intercalate hne
      (fun item hitem => OrderItem.legible (h item hitem))
      (by decide : opens [',', ')'] [] ", ")
    exact hlisted.mono fun rest hrest => hrest.of (by decide) (by decide)
  exact hoptional.mono fun rest hrest => hrest.of (by decide) (by decide)

end Parts

section Statements

/-- A source has a name for its alias and, if it is a table, for the table. -/
def Source.IsNamed : Source → Prop
  | .table name aliasName => IsName name ∧ IsName aliasName
  | .subquery _ aliasName => IsName aliasName

/-- A level of a statement shows something, joins on something, and has plain parts. -/
structure Statement.PlainLevel (level : Statement) : Prop where
  items_ne_nil : level.items ≠ []
  items : ∀ item ∈ level.items, item.Plain
  sources : ∀ source ∈ level.sources, source.IsNamed
  conditions_ne_nil : ∀ join ∈ level.joins, join.conditions ≠ []
  conditions : ∀ join ∈ level.joins, ∀ condition ∈ join.conditions, condition.Plain
  orderBy : ∀ item ∈ level.orderBy, item.expr.Plain

def Statement.Plain (statement : Statement) : Prop :=
  ∀ level ∈ statement.levels, level.PlainLevel

structure Source.Plain (source : Source) : Prop where
  named : source.IsNamed
  levels : ∀ level ∈ source.levels, level.PlainLevel

theorem Join.levels_subset {join : Join} {joins : List Join} (h : join ∈ joins) :
    join.source.levels ⊆ Join.levels joins := by
  induction joins with
  | nil => cases h
  | cons first rest ih =>
      obtain ⟨source, conditions, kind⟩ := first
      rw [Join.levels]
      rcases List.mem_cons.mp h with rfl | h
      · exact List.subset_append_left _ _
      · exact List.Subset.trans (ih h) (List.subset_append_right _ _)

namespace Statement.Plain

variable {statement : Statement}

theorem level (h : statement.Plain) : statement.PlainLevel := by
  apply h
  cases statement
  exact List.mem_cons_self

theorem source (h : statement.Plain) : statement.source.Plain := by
  refine ⟨h.level.sources _ List.mem_cons_self, fun level hlevel => h level ?_⟩
  cases statement
  exact List.mem_cons_of_mem _ (List.mem_append_left _ hlevel)

theorem joined (h : statement.Plain) : ∀ join ∈ statement.joins, join.source.Plain := by
  intro join hjoin
  refine ⟨h.level.sources _ (List.mem_cons_of_mem _ (List.mem_map_of_mem hjoin)),
    fun level hlevel => h level ?_⟩
  cases statement
  exact List.mem_cons_of_mem _ (List.mem_append_right _ (Join.levels_subset hjoin hlevel))

end Statement.Plain

def Join.body (join : Join) : List Char :=
  join.source.sql.toList ++
    (" ON ".toList ++ (" AND ".intercalate (join.conditions.map Operation.sql)).toList)

theorem Join.toList_clauses (joins : List Join) :
    (clauses joins).toList = chain " FULL OUTER JOIN " body joins := by
  induction joins with
  | nil => simp [clauses, chain]
  | cons join joins ih =>
      obtain ⟨source, conditions, ⟨⟩⟩ := join
      rw [chain, List.flatMap_cons, ← chain, ← ih]
      simp [clauses, clause, body, JoinKind.sql]

structure Join.Plain (join : Join) : Prop where
  source : join.source.Plain
  conditions_ne_nil : join.conditions ≠ []
  conditions : ∀ condition ∈ join.conditions, condition.Plain

theorem Join.Plain.legible {join : Join} (h : join.Plain)
    (hsource : Legible (fun source => source.sql.toList) Source.Plain (Stops [' ', ')'] [])
      join.source) : Legible body Join.Plain (Stops [' ', ')'] [" AND ", " OVER"]) join := by
  have hconditions := Legible.intercalate h.conditions_ne_nil
    (fun condition hcondition => (h.conditions condition hcondition).legible)
    (by decide : opens [' ', ')'] [" OVER"] " AND ")
  intro other hother rest rest' hrest hrest' heq
  obtain ⟨source, conditions, ⟨⟩⟩ := join
  obtain ⟨source', conditions', ⟨⟩⟩ := other
  rw [body, body, List.append_assoc, List.append_assoc, List.append_assoc, List.append_assoc] at heq
  obtain ⟨rfl, hon⟩ := hsource _ hother.source _ _ (stops_of_opens (by decide) _)
    (stops_of_opens (by decide) _) heq
  obtain ⟨rfl, hrests⟩ := hconditions _ ⟨hother.conditions_ne_nil, hother.conditions⟩ _ _ hrest
    hrest' (List.append_cancel_left hon)
  exact ⟨rfl, hrests⟩

theorem Statement.toList_sql (statement : Statement) : statement.sql.toList =
    "SELECT ".toList ++ ((", ".intercalate (statement.items.map SelectItem.sql)).toList ++
      (" FROM ".toList ++ (statement.source.sql.toList ++
        (chain " FULL OUTER JOIN " Join.body statement.joins ++
          (OrderItem.clause statement.orderBy).toList)))) := by
  obtain ⟨items, source, joins, orderBy⟩ := statement
  rw [← Join.toList_clauses]
  simp [sql]

theorem OrderItem.stops_clause (items : List OrderItem) {rest : List Char}
    (hrest : Stops [')'] [] rest) :
    Stops [' ', ')'] [" FULL OUTER JOIN ", " AND ", " OVER"] ((clause items).toList ++ rest) := by
  cases items with
  | nil => exact hrest.of (by decide) (by decide)
  | cons item items =>
      rw [toList_clause (List.cons_ne_nil _ _), List.append_assoc]
      exact stops_of_opens (by decide) _

theorem Statement.Plain.legible_of_sources {statement : Statement} (h : statement.Plain)
    (hsource : Legible (fun source => source.sql.toList) Source.Plain (Stops [' ', ')'] [])
      statement.source)
    (hjoined : ∀ join ∈ statement.joins,
      Legible (fun source => source.sql.toList) Source.Plain (Stops [' ', ')'] []) join.source) :
    Legible (fun statement => statement.sql.toList) Statement.Plain (Stops [')'] []) statement := by
  have hplain : ∀ {statement : Statement}, statement.Plain → ∀ join ∈ statement.joins, join.Plain :=
    fun h join hjoin => ⟨h.joined join hjoin, h.level.conditions_ne_nil join hjoin,
      h.level.conditions join hjoin⟩
  have hitems := Legible.intercalate h.level.items_ne_nil
    (fun item hitem => (h.level.items item hitem).legible)
    (by decide : opens [' ', ','] [" AS ", " OVER"] ", ")
  have hjoins := Legible.chain
    (fun join hjoin => (hplain h join hjoin).legible (hjoined join hjoin))
    (by decide : opens [' ', ')'] [" AND ", " OVER"] " FULL OUTER JOIN ")
  have horder := OrderItem.legible_clause h.level.orderBy
  -- the joins and the order behind a source end it
  have hends : ∀ (joins : List Join) (orderBy : List OrderItem) {rest : List Char},
      Stops [')'] [] rest → Stops [' ', ')'] [] (chain " FULL OUTER JOIN " Join.body joins ++
        ((OrderItem.clause orderBy).toList ++ rest)) := fun joins orderBy rest hrest =>
    stops_chain (by decide) joins
      ((OrderItem.stops_clause orderBy hrest).of (List.Subset.refl _) (by simp))
  intro other hother rest rest' hrest hrest' heq
  dsimp only at heq
  rw [toList_sql, toList_sql] at heq
  simp only [List.append_assoc] at heq
  obtain ⟨items, source, joins, orderBy⟩ := statement
  obtain ⟨items', source', joins', orderBy'⟩ := other
  obtain ⟨rfl, hfrom⟩ := hitems _ ⟨hother.level.items_ne_nil, hother.level.items⟩ _ _
    (stops_of_opens (by decide) _) (stops_of_opens (by decide) _) (List.append_cancel_left heq)
  obtain ⟨rfl, hclauses⟩ := hsource _ hother.source _ _ (hends joins orderBy hrest)
    (hends joins' orderBy' hrest') (List.append_cancel_left hfrom)
  obtain ⟨rfl, hclause⟩ := hjoins _ (hplain hother) _ _ (OrderItem.stops_clause orderBy hrest)
    (OrderItem.stops_clause orderBy' hrest') hclauses
  obtain ⟨rfl, hrests⟩ := horder _ hother.level.orderBy _ _ hrest hrest' hclause
  exact ⟨rfl, hrests⟩

theorem Source.toList_table (name aliasName : String) : (table name aliasName).sql.toList =
    name.toList ++ (" AS ".toList ++ aliasName.toList) := by
  simp [sql]

theorem Source.toList_subquery (query : Statement) (aliasName : String) :
    (subquery query aliasName).sql.toList =
      '(' :: (query.sql.toList ++ (") AS ".toList ++ aliasName.toList)) := by
  simp [sql]

theorem Source.legible_table {name aliasName : String} (hname : IsName name)
    (halias : IsName aliasName) :
    Legible (fun source => source.sql.toList) Source.Plain (Stops [' ', ')'] [])
      (.table name aliasName) := by
  intro other hother rest rest' hrest hrest' heq
  dsimp only at heq
  rw [toList_table, List.append_assoc, List.append_assoc] at heq
  cases other with
  | table name' aliasName' =>
      obtain ⟨hname', halias'⟩ := hother.named
      rw [toList_table, List.append_assoc, List.append_assoc] at heq
      obtain ⟨rfl, has⟩ := hname.legible _ hname' _ _ (stops_of_opens (by decide) _)
        (stops_of_opens (by decide) _) heq
      obtain ⟨rfl, hrests⟩ := halias.legible _ halias' _ _ (hrest.of (by decide) (by simp))
        (hrest'.of (by decide) (by simp)) (List.append_cancel_left has)
      exact ⟨rfl, hrests⟩
  | subquery query aliasName' =>
      rw [toList_subquery] at heq
      exact absurd heq (hname.append_ne (by decide) _ _)

theorem Source.legible_subquery {query : Statement} {aliasName : String}
    (halias : IsName aliasName)
    (hquery : Legible (fun statement => statement.sql.toList) Statement.Plain (Stops [')'] [])
      query) :
    Legible (fun source => source.sql.toList) Source.Plain (Stops [' ', ')'] [])
      (.subquery query aliasName) := by
  intro other hother rest rest' hrest hrest' heq
  dsimp only at heq
  rw [toList_subquery] at heq
  cases other with
  | table name aliasName' =>
      rw [toList_table, List.append_assoc] at heq
      exact absurd heq.symm (hother.named.1.append_ne (by decide) _ _)
  | subquery query' aliasName' =>
      rw [toList_subquery, List.cons_append, List.cons_append] at heq
      have hqueries := (List.cons.inj heq).2
      simp only [List.append_assoc] at hqueries
      obtain ⟨rfl, has⟩ := hquery _ hother.levels _ _ (stops_of_opens (by decide) _)
        (stops_of_opens (by decide) _) hqueries
      obtain ⟨rfl, hrests⟩ := halias.legible _ hother.named _ _ (hrest.of (by decide) (by simp))
        (hrest'.of (by decide) (by simp)) (List.append_cancel_left has)
      exact ⟨rfl, hrests⟩

mutual

theorem Statement.Plain.legible (statement : Statement) (h : statement.Plain) :
    Legible (fun statement => statement.sql.toList) Statement.Plain (Stops [')'] []) statement := by
  obtain ⟨items, source, joins, orderBy⟩ := statement
  exact h.legible_of_sources (Source.Plain.legible source h.source)
    (Join.legible_sources joins h.joined)

theorem Source.Plain.legible (source : Source) (h : source.Plain) :
    Legible (fun source => source.sql.toList) Source.Plain (Stops [' ', ')'] []) source := by
  match source with
  | .table _ _ => exact Source.legible_table h.named.1 h.named.2
  | .subquery query _ =>
      exact Source.legible_subquery h.named (Statement.Plain.legible query h.levels)

theorem Join.legible_sources (joins : List Join) (h : ∀ join ∈ joins, join.source.Plain) :
    ∀ join ∈ joins,
      Legible (fun source => source.sql.toList) Source.Plain (Stops [' ', ')'] []) join.source := by
  match joins with
  | [] => exact nofun
  | ⟨source, conditions, kind⟩ :: rest =>
      rw [List.forall_mem_cons] at h ⊢
      exact ⟨Source.Plain.legible source h.1, Join.legible_sources rest h.2⟩

end

/-- A plain statement is determined by its text: no other one, however its queries and calls are
nested, has the same. Names may be any identifiers, even keywords. -/
theorem Statement.sql_inj {statement other : Statement} (h : statement.Plain)
    (hother : other.Plain) : statement.sql = other.sql ↔ statement = other := by
  constructor
  · intro hsql
    have hnil : Stops [')'] [] [] := stops_nil (by simp)
    have htext : statement.sql.toList ++ [] = other.sql.toList ++ [] := by rw [hsql]
    exact (h.legible statement other hother [] [] hnil hnil htext).1
  · rintro rfl
    rfl

/-- A call and a window without partition, in an inline query under a join. -/
theorem Statement.sql_inj_window :
    let id : Expr := .property "T1" "id"
    let query (expr : Expr) : Statement := ⟨[⟨expr, some "top"⟩], .table "orders" "T1", [], []⟩
    let statement (expr : Expr) : Statement :=
      ⟨[⟨.property "V" "top", none⟩, ⟨.literal (-1), some "AS"⟩], .table "lines" "T2",
        [⟨.subquery (query expr) "V", [⟨.equal, [.property "V" "top", .literal 1]⟩], .fullOuter⟩],
        [⟨.aliasRef "top", .descending⟩]⟩
    (statement (.window "MAX" [id] [])).sql ≠ (statement (.call "MAX" [id])).sql := by
  intro id query statement
  have hname : ∀ name ∈ ["T1", "id", "top", "orders", "V", "AS", "lines", "T2", "MAX"],
      IsName name := fun name hmem =>
    isName_of_isIdentifier (List.all_eq_true.mp (by decide) name hmem)
  have hproperty : (Expr.property "V" "top").Plain :=
    .property (hname _ (by simp)) (hname _ (by simp))
  have hargs : ∀ arg ∈ [id], arg.Plain :=
    List.forall_mem_singleton.mpr (.property (hname _ (by simp)) (hname _ (by simp)))
  have hquery : ∀ expr : Expr, expr.Plain → (query expr).PlainLevel := fun expr hexpr =>
    { items_ne_nil := List.cons_ne_nil _ _
      items := List.forall_mem_singleton.mpr ⟨hexpr, by simpa using hname "top" (by simp)⟩
      sources := List.forall_mem_singleton.mpr ⟨hname _ (by simp), hname _ (by simp)⟩
      conditions_ne_nil := nofun
      conditions := nofun
      orderBy := nofun }
  have hplain : ∀ expr : Expr, expr.Plain → (statement expr).Plain := by
    intro expr hexpr
    refine List.forall_mem_cons.mpr ⟨?_, List.forall_mem_singleton.mpr (hquery expr hexpr)⟩
    exact
      { items_ne_nil := List.cons_ne_nil _ _
        items := List.forall_mem_cons.mpr ⟨⟨hproperty, nofun⟩,
          List.forall_mem_singleton.mpr ⟨.literal _, by simpa using hname "AS" (by simp)⟩⟩
        sources := List.forall_mem_cons.mpr ⟨⟨hname _ (by simp), hname _ (by simp)⟩,
          List.forall_mem_singleton.mpr (hname "V" (by simp))⟩
        conditions_ne_nil := List.forall_mem_singleton.mpr (List.cons_ne_nil _ _)
        conditions := List.forall_mem_singleton.mpr
          (List.forall_mem_singleton.mpr ⟨_, _, rfl, hproperty, .literal _⟩)
        orderBy := List.forall_mem_singleton.mpr (.aliasRef (hname _ (by simp))) }
  rw [ne_eq, sql_inj (hplain _ (.window (hname _ (by simp)) hargs (by simp)))
    (hplain _ (.call (hname _ (by simp)) hargs))]
  simp [statement, query]

end Statements

end FlatAggregate
