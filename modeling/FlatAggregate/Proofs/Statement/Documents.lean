import FlatAggregate.Statement.Document
import Mathlib.Data.List.Forall2
import Mathlib.Data.List.Nodup

/-!
# Reading back the documents of statements

The members of a record have no order of their own. So the document of a statement is taken up to
`Value.Rearranged`: whatever the order of the members, it is read back as the statement that it was
written for (`Statement.ofValue?_of_rearranged`), and no two statements have the same document.

The proofs follow the syntax. A written record has each of its names once, so each field is found
with its own value, rearranged at most (`Value.Rearranged.exists_parts`).
-/

namespace FlatAggregate

open Value

namespace Value

/-- The second value is the first one with the members of its records, inner ones included, in any
order. -/
inductive Rearranged : Value → Value → Prop
  | same (value : Value) : Rearranged value value
  | list {items others : List Value} (h : List.Forall₂ Rearranged items others) :
      Rearranged (list items) (list others)
  | record {members arranged others : List (Value × Value)}
      (hnames : members.map Prod.fst = arranged.map Prod.fst)
      (hvalues : List.Forall₂ Rearranged (members.map Prod.snd) (arranged.map Prod.snd))
      (hperm : arranged.Perm others) : Rearranged (record members) (record others)

theorem member?_eq_none {name : String} {members : List (Value × Value)}
    (h : text name ∉ members.map Prod.fst) : member? name members = none := by
  induction members with
  | nil => rfl
  | cons member rest ih =>
      obtain ⟨key, value⟩ := member
      rw [List.map_cons, List.mem_cons, not_or] at h
      cases key with
      | text found =>
          rw [member?, ih h.2]
          exact if_neg fun heq => h.1 (congrArg text heq.symm)
      | _ =>
          rw [member?, ih h.2]
          nofun

theorem member?_of_mem {name : String} {value : Value} {members : List (Value × Value)}
    (hnames : (members.map Prod.fst).Nodup) (h : (text name, value) ∈ members) :
    ∃ hlt, member? name members = some ⟨value, hlt⟩ := by
  induction members with
  | nil => simp at h
  | cons member rest ih =>
      obtain ⟨key, other⟩ := member
      rw [List.map_cons, List.nodup_cons] at hnames
      rcases List.mem_cons.mp h with heq | hrest
      · cases heq
        rw [member?, member?_eq_none hnames.1]
        exact ⟨_, if_pos rfl⟩
      · obtain ⟨hlt, hfound⟩ := ih hnames.2 hrest
        refine ⟨by simp; omega, ?_⟩
        unfold member?
        rw [hfound]

namespace Rearranged

variable {value : Value}

theorem of_perm {members others : List (Value × Value)} (h : members.Perm others) :
    (Value.record members).Rearranged (Value.record others) :=
  .record rfl (List.forall₂_same.mpr fun value _ => .same value) h

theorem eq_of_text {content : String} (h : (text content).Rearranged value) :
    value = text content := by
  cases h
  rfl

theorem eq_of_integer {number : Int} (h : (integer number).Rearranged value) :
    value = integer number := by
  cases h
  rfl

theorem eq_of_ofOption {content : Option String} (h : (ofOption content).Rearranged value) :
    value = ofOption content := by
  cases content <;> cases h <;> rfl

theorem exists_list {items : List Value} (h : (Value.list items).Rearranged value) :
    ∃ others, value = .list others ∧ List.Forall₂ Rearranged items others := by
  cases h with
  | same => exact ⟨items, rfl, List.forall₂_same.mpr fun item _ => .same item⟩
  | list h => exact ⟨_, rfl, h⟩

theorem exists_mem_of_forall₂ {members arranged : List (Value × Value)}
    (hnames : members.map Prod.fst = arranged.map Prod.fst)
    (hvalues : List.Forall₂ Rearranged (members.map Prod.snd) (arranged.map Prod.snd)) :
    ∀ member ∈ members, ∃ other, (member.1, other) ∈ arranged ∧ member.2.Rearranged other := by
  induction members generalizing arranged with
  | nil => simp
  | cons first rest ih =>
      cases arranged with
      | nil => simp at hnames
      | cons second others =>
          rw [List.map_cons, List.map_cons, List.cons_eq_cons] at hnames
          rw [List.map_cons, List.map_cons, List.forall₂_cons] at hvalues
          intro member hmem
          rcases List.mem_cons.mp hmem with rfl | hrest
          · exact ⟨second.2, hnames.1 ▸ List.mem_cons_self, hvalues.1⟩
          · obtain ⟨other, hother, hvalue⟩ := ih hnames.2 hvalues.2 member hrest
            exact ⟨other, List.mem_cons_of_mem _ hother, hvalue⟩

theorem exists_record {members : List (String × Value)} (h : (object members).Rearranged value) :
    ∃ others, value = .record others ∧
      (others.map Prod.fst).Perm (members.map fun member => text member.1) ∧
      ∀ member ∈ members, ∃ other, (text member.1, other) ∈ others ∧
        member.2.Rearranged other := by
  cases h with
  | same =>
      refine ⟨_, rfl, by simp [Function.comp_def], fun member hmem => ⟨member.2, ?_, .same _⟩⟩
      exact List.mem_map.mpr ⟨member, hmem, rfl⟩
  | @record _ arranged others hnames hvalues hperm =>
      refine ⟨others, rfl, ?_, fun member hmem => ?_⟩
      · rw [List.map_map] at hnames
        exact (hperm.map Prod.fst).symm.trans (.of_eq hnames.symm)
      · obtain ⟨other, hother, hvalue⟩ := exists_mem_of_forall₂ hnames hvalues
          (text member.1, member.2) (List.mem_map.mpr ⟨member, hmem, rfl⟩)
        exact ⟨other, hperm.mem_iff.mp hother, hvalue⟩

theorem exists_tagged {tag : String} {content : Value}
    (h : (object [(tag, content)]).Rearranged value) :
    ∃ other, value = object [(tag, other)] ∧ content.Rearranged other := by
  obtain ⟨others, rfl, hnames, hvalues⟩ := h.exists_record
  obtain ⟨other, hmem, hother⟩ := hvalues _ List.mem_cons_self
  have hsingle := List.perm_singleton.mp hnames
  refine ⟨other, ?_, hother⟩
  obtain ⟨⟨key, found⟩, rest, rfl⟩ := List.exists_cons_of_ne_nil (List.ne_nil_of_mem hmem)
  rw [List.map_cons, List.cons_eq_cons, List.map_eq_nil_iff] at hsingle
  obtain ⟨rfl, rfl⟩ := hsingle
  cases List.mem_singleton.mp hmem
  rfl

theorem exists_parts {members : List (String × Value)} (h : (object members).Rearranged value)
    (hnodup : (members.map Prod.fst).Nodup) :
    ∃ parts : List value.Part, value.fields? (members.map Prod.fst) = some (parts.map some) ∧
      List.Forall₂ (fun member part => member.2.Rearranged part.1) members parts := by
  obtain ⟨others, rfl, hnames, hvalues⟩ := h.exists_record
  have hothers : (others.map Prod.fst).Nodup := by
    have htexts := List.Nodup.map (fun _ _ => Value.text.inj) hnodup
    rw [List.map_map] at htexts
    exact hnames.nodup_iff.mpr htexts
  have hfields : (Value.record others).fields? (members.map Prod.fst) =
      some ((members.map Prod.fst).map fun name =>
        (member? name others).map fun found => ⟨found.1, by have := found.2; simp; omega⟩) := rfl
  rw [hfields]
  clear hnodup hfields hnames h
  induction members with
  | nil => exact ⟨[], rfl, .nil⟩
  | cons member rest ih =>
      obtain ⟨parts, hparts, hrest⟩ := ih fun other hother => hvalues other (.tail _ hother)
      obtain ⟨other, hmem, hother⟩ := hvalues member List.mem_cons_self
      obtain ⟨hlt, hfound⟩ := member?_of_mem hothers hmem
      refine ⟨⟨other, by simp; omega⟩ :: parts, ?_, .cons hother hrest⟩
      rw [List.map_cons, List.map_cons, hfound, Option.some.inj hparts]
      rfl

theorem exists_pair {first second : String} {one two : Value}
    (h : (object [(first, one), (second, two)]).Rearranged value) (hne : first ≠ second) :
    ∃ part other : value.Part, value.fields? [first, second] = some [some part, some other] ∧
      one.Rearranged part.1 ∧ two.Rearranged other.1 := by
  obtain ⟨parts, hfields, hparts⟩ := h.exists_parts (by simp [hne])
  simp only [List.forall₂_cons_left_iff, List.forall₂_nil_left_iff] at hparts
  obtain ⟨part, _, hpart, ⟨other, _, hother, rfl, rfl⟩, rfl⟩ := hparts
  exact ⟨part, other, hfields, hpart, hother⟩

theorem exists_triple {first second third : String} {one two three : Value}
    (h : (object [(first, one), (second, two), (third, three)]).Rearranged value)
    (hnodup : [first, second, third].Nodup) :
    ∃ part other last : value.Part,
      value.fields? [first, second, third] = some [some part, some other, some last] ∧
        one.Rearranged part.1 ∧ two.Rearranged other.1 ∧ three.Rearranged last.1 := by
  obtain ⟨parts, hfields, hparts⟩ := h.exists_parts hnodup
  simp only [List.forall₂_cons_left_iff, List.forall₂_nil_left_iff] at hparts
  obtain ⟨part, _, hpart, ⟨other, _, hother, ⟨last, _, hlast, rfl, rfl⟩, rfl⟩, rfl⟩ := hparts
  exact ⟨part, other, last, hfields, hpart, hother, hlast⟩

theorem mapM_eq_some {α : Type} {toValue : α → Value} {ofValue? : Value → Option α}
    (hread : ∀ item value, (toValue item).Rearranged value → ofValue? value = some item) :
    ∀ {items : List α} {values : List Value},
      List.Forall₂ Rearranged (items.map toValue) values → values.mapM ofValue? = some items
  | [], _, h => by
      rw [List.map_nil, List.forall₂_nil_left_iff] at h
      rw [h, List.mapM_nil]
      rfl
  | item :: rest, _, h => by
      rw [List.map_cons, List.forall₂_cons_left_iff] at h
      obtain ⟨value, others, hvalue, hothers, rfl⟩ := h
      rw [List.mapM_cons, hread item value hvalue, mapM_eq_some hread hothers]
      rfl

end Rearranged

@[simp] theorem int64?_integer (value : Int64) : int64? (integer value.toInt) = some value := by
  rw [int64?, Int64.ofInt_toInt, if_pos rfl]

end Value

variable {value : Value}

theorem Operator.ofValue?_of_rearranged {operator : Operator}
    (h : operator.toValue.Rearranged value) : Operator.ofValue? value = some operator := by
  cases operator
  rw [Operator.toValue] at h
  rw [h.eq_of_text]
  rfl

theorem JoinKind.ofValue?_of_rearranged {kind : JoinKind} (h : kind.toValue.Rearranged value) :
    JoinKind.ofValue? value = some kind := by
  cases kind
  rw [JoinKind.toValue] at h
  rw [h.eq_of_text]
  rfl

theorem SortOrder.ofValue?_of_rearranged {order : SortOrder}
    (h : order.toValue.Rearranged value) : SortOrder.ofValue? value = some order := by
  cases order
  all_goals
    rw [SortOrder.toValue] at h
    rw [h.eq_of_text]
    rfl

/-! ### Expressions -/

mutual

theorem Expr.ofValue?_of_rearranged {value : Value} :
    ∀ {expr : Expr}, expr.toValue.Rearranged value → Expr.ofValue? value = some expr
  | .literal number, h => by
      rw [Expr.toValue] at h
      obtain ⟨inner, rfl, hinner⟩ := h.exists_tagged
      obtain ⟨content, rfl, hcontent⟩ := hinner.exists_tagged
      rw [hcontent.eq_of_integer, Expr.ofValue?]
      change (int64? (integer number.toInt)).bind _ = _
      rw [int64?_integer]
      rfl
  | .aliasRef name, h => by
      rw [Expr.toValue] at h
      obtain ⟨content, rfl, hcontent⟩ := h.exists_tagged
      rw [hcontent.eq_of_text, Expr.ofValue?]
      rfl
  | .property source column, h => by
      rw [Expr.toValue] at h
      obtain ⟨content, rfl, hcontent⟩ := h.exists_tagged
      obtain ⟨⟨_, _⟩, ⟨_, _⟩, hfields, hsource, hcolumn⟩ := hcontent.exists_pair (by decide)
      obtain rfl := hsource.eq_of_text
      obtain rfl := hcolumn.eq_of_text
      rw [Expr.ofValue?]
      -- By the tag, the reader asks for these fields; below, what it reads of them comes next.
      change (content.fields? ["table_alias", "column"]).bind _ = _
      rw [hfields]
      rfl
  | .call function args, h => by
      rw [Expr.toValue] at h
      obtain ⟨content, rfl, hcontent⟩ := h.exists_tagged
      obtain ⟨⟨_, _⟩, ⟨_, _⟩, hfields, hname, hlist⟩ := hcontent.exists_pair (by decide)
      obtain rfl := hname.eq_of_text
      obtain ⟨items, rfl, hitems⟩ := hlist.exists_list
      rw [Expr.ofValue?]
      change (content.fields? ["name", "args"]).bind _ = _
      rw [hfields]
      change (Expr.ofValues? items).bind _ = _
      rw [Expr.ofValues?_of_rearranged hitems]
      rfl
  | .window function args partitionBy, h => by
      rw [Expr.toValue] at h
      obtain ⟨content, rfl, hcontent⟩ := h.exists_tagged
      obtain ⟨⟨_, _⟩, ⟨_, _⟩, ⟨_, _⟩, hfields, hname, hargs, hpartition⟩ :=
        hcontent.exists_triple (by decide)
      obtain rfl := hname.eq_of_text
      obtain ⟨items, rfl, hitems⟩ := hargs.exists_list
      obtain ⟨keys, rfl, hkeys⟩ := hpartition.exists_list
      rw [Expr.ofValue?]
      change (content.fields? ["name", "args", "partition_by"]).bind _ = _
      rw [hfields]
      change (Expr.ofValues? items).bind (fun read => (Expr.ofValues? keys).bind _) = _
      rw [Expr.ofValues?_of_rearranged hitems, Expr.ofValues?_of_rearranged hkeys]
      rfl
  | .operation operator operands, h => by
      rw [Expr.toValue] at h
      obtain ⟨content, rfl, hcontent⟩ := h.exists_tagged
      obtain ⟨⟨_, _⟩, ⟨_, _⟩, hfields, hoperator, hlist⟩ := hcontent.exists_pair (by decide)
      obtain ⟨items, rfl, hitems⟩ := hlist.exists_list
      rw [Expr.ofValue?]
      change (content.fields? ["operator", "operands"]).bind _ = _
      rw [hfields]
      change (Operator.ofValue? _).bind (fun read => (Expr.ofValues? items).bind _) = _
      rw [Operator.ofValue?_of_rearranged hoperator, Expr.ofValues?_of_rearranged hitems]
      rfl

theorem Expr.ofValues?_of_rearranged {values : List Value} :
    ∀ {exprs : List Expr}, List.Forall₂ Value.Rearranged (Expr.toValues exprs) values →
      Expr.ofValues? values = some exprs
  | [], h => by
      rw [Expr.toValues, List.forall₂_nil_left_iff] at h
      rw [h, Expr.ofValues?]
  | expr :: rest, h => by
      rw [Expr.toValues, List.forall₂_cons_left_iff] at h
      obtain ⟨value, others, hvalue, hothers, rfl⟩ := h
      rw [Expr.ofValues?, Expr.ofValue?_of_rearranged hvalue,
        Expr.ofValues?_of_rearranged hothers]
      rfl

end

/-! ### The parts of a statement -/

theorem Operation.ofValue?_of_rearranged {operation : Operation}
    (h : operation.toValue.Rearranged value) : Operation.ofValue? value = some operation := by
  rw [Operation.toValue] at h
  obtain ⟨⟨_, _⟩, ⟨_, _⟩, hfields, hoperator, hlist⟩ := h.exists_pair (by decide)
  obtain ⟨items, rfl, hitems⟩ := hlist.exists_list
  simp [Operation.ofValue?, hfields, items?, Operator.ofValue?_of_rearranged hoperator,
    Expr.ofValues?_of_rearranged hitems]

theorem SelectItem.ofValue?_of_rearranged {item : SelectItem}
    (h : item.toValue.Rearranged value) : SelectItem.ofValue? value = some item := by
  rw [SelectItem.toValue] at h
  obtain ⟨⟨_, _⟩, ⟨_, _⟩, hfields, hexpr, halias⟩ := h.exists_pair (by decide)
  obtain rfl := halias.eq_of_ofOption
  simp [SelectItem.ofValue?, hfields, Expr.ofValue?_of_rearranged hexpr]

theorem OrderItem.ofValue?_of_rearranged {item : OrderItem} (h : item.toValue.Rearranged value) :
    OrderItem.ofValue? value = some item := by
  rw [OrderItem.toValue] at h
  obtain ⟨⟨_, _⟩, ⟨_, _⟩, hfields, hexpr, horder⟩ := h.exists_pair (by decide)
  simp [OrderItem.ofValue?, hfields, Expr.ofValue?_of_rearranged hexpr,
    SortOrder.ofValue?_of_rearranged horder]

/-! ### Statements -/

mutual

theorem Statement.ofValue?_of_rearranged {value : Value} :
    ∀ {statement : Statement}, statement.toValue.Rearranged value →
      Statement.ofValue? value = some statement
  | ⟨items, source, joins, orderBy⟩, h => by
      rw [Statement.toValue] at h
      obtain ⟨parts, hfields, hparts⟩ := h.exists_parts (by simp)
      simp only [List.forall₂_cons_left_iff, List.forall₂_nil_left_iff] at hparts
      obtain ⟨⟨_, _⟩, _, hselect, ⟨⟨_, _⟩, _, hsource, ⟨⟨_, _⟩, _, hjoins,
        ⟨⟨_, _⟩, _, horder, rfl, rfl⟩, rfl⟩, rfl⟩, rfl⟩ := hparts
      obtain ⟨selected, rfl, hselected⟩ := hselect.exists_list
      obtain ⟨joined, rfl, hjoined⟩ := hjoins.exists_list
      obtain ⟨ordered, rfl, hordered⟩ := horder.exists_list
      simp only [List.map_cons, List.map_nil] at hfields
      rw [Statement.ofValue?]
      change (value.fields? ["select", "from", "joins", "order_by"]).bind _ = _
      rw [hfields]
      change (selected.mapM SelectItem.ofValue?).bind (fun items => (Source.ofValue? _).bind
        fun source => (Join.ofValues? joined).bind fun joins =>
          (ordered.mapM OrderItem.ofValue?).bind _) = _
      rw [Value.Rearranged.mapM_eq_some (fun _ _ => SelectItem.ofValue?_of_rearranged) hselected,
        Source.ofValue?_of_rearranged hsource, Join.ofValues?_of_rearranged hjoined,
        Value.Rearranged.mapM_eq_some (fun _ _ => OrderItem.ofValue?_of_rearranged) hordered]
      rfl

theorem Source.ofValue?_of_rearranged {value : Value} :
    ∀ {source : Source}, source.toValue.Rearranged value → Source.ofValue? value = some source
  | .table name aliasName, h => by
      rw [Source.toValue] at h
      obtain ⟨content, rfl, hcontent⟩ := h.exists_tagged
      obtain ⟨members, rfl, _⟩ := hcontent.exists_record
      obtain ⟨⟨_, _⟩, ⟨_, _⟩, hfields, hname, halias⟩ := hcontent.exists_pair (by decide)
      obtain rfl := hname.eq_of_text
      obtain rfl := halias.eq_of_text
      rw [Source.ofValue?]
      simp [hfields]
  | .subquery query aliasName, h => by
      rw [Source.toValue] at h
      obtain ⟨content, rfl, hcontent⟩ := h.exists_tagged
      obtain ⟨members, rfl, _⟩ := hcontent.exists_record
      obtain ⟨⟨_, _⟩, ⟨_, _⟩, hfields, hquery, halias⟩ := hcontent.exists_pair (by decide)
      obtain rfl := halias.eq_of_text
      rw [Source.ofValue?]
      simp [hfields, Statement.ofValue?_of_rearranged hquery]

theorem Join.ofValue?_of_rearranged {value : Value} :
    ∀ {join : Join}, join.toValue.Rearranged value → Join.ofValue? value = some join
  | ⟨source, conditions, kind⟩, h => by
      rw [Join.toValue] at h
      obtain ⟨⟨_, _⟩, ⟨_, _⟩, ⟨_, _⟩, hfields, hsource, hlist, hkind⟩ :=
        h.exists_triple (by decide)
      obtain ⟨items, rfl, hitems⟩ := hlist.exists_list
      rw [Join.ofValue?]
      change (value.fields? ["source", "joining_on", "join_type"]).bind _ = _
      rw [hfields]
      change (Source.ofValue? _).bind (fun source => (items.mapM Operation.ofValue?).bind
        fun conditions => (JoinKind.ofValue? _).bind _) = _
      rw [Source.ofValue?_of_rearranged hsource,
        Value.Rearranged.mapM_eq_some (fun _ _ => Operation.ofValue?_of_rearranged) hitems,
        JoinKind.ofValue?_of_rearranged hkind]
      rfl

theorem Join.ofValues?_of_rearranged {values : List Value} :
    ∀ {joins : List Join}, List.Forall₂ Value.Rearranged (Join.toValues joins) values →
      Join.ofValues? values = some joins
  | [], h => by
      rw [Join.toValues, List.forall₂_nil_left_iff] at h
      rw [h, Join.ofValues?]
  | join :: rest, h => by
      rw [Join.toValues, List.forall₂_cons_left_iff] at h
      obtain ⟨value, others, hvalue, hothers, rfl⟩ := h
      rw [Join.ofValues?, Join.ofValue?_of_rearranged hvalue,
        Join.ofValues?_of_rearranged hothers]
      rfl

end

/-- Documents lose nothing. The document of an expression or of a statement is read back as what it
was written for, whatever the order of its members; so different ones have different documents. -/
theorem statements_lossless :
    (∀ expr : Expr, Expr.ofValue? expr.toValue = some expr ∧
      ∀ value, expr.toValue.Rearranged value → Expr.ofValue? value = some expr) ∧
    (∀ statement : Statement, Statement.ofValue? statement.toValue = some statement ∧
      ∀ value, statement.toValue.Rearranged value → Statement.ofValue? value = some statement) ∧
    (∀ expr other : Expr, expr.toValue.Rearranged other.toValue ↔ expr = other) ∧
    ∀ statement other : Statement, statement.toValue.Rearranged other.toValue ↔
      statement = other := by
  have hexpr (expr : Expr) : Expr.ofValue? expr.toValue = some expr :=
    Expr.ofValue?_of_rearranged (.same _)
  have hstatement (statement : Statement) : Statement.ofValue? statement.toValue = some statement :=
    Statement.ofValue?_of_rearranged (.same _)
  refine ⟨fun expr => ⟨hexpr expr, fun _ => Expr.ofValue?_of_rearranged⟩,
    fun statement => ⟨hstatement statement, fun _ => Statement.ofValue?_of_rearranged⟩,
    fun expr other => ⟨fun h => ?_, fun h => h ▸ .same _⟩,
    fun statement other => ⟨fun h => ?_, fun h => h ▸ .same _⟩⟩
  · have hread := Expr.ofValue?_of_rearranged h
    rw [hexpr] at hread
    exact (Option.some.inj hread).symm
  · have hread := Statement.ofValue?_of_rearranged h
    rw [hstatement] at hread
    exact (Option.some.inj hread).symm

/-- A column with its name before its source, and a statement with its source before its items. -/
theorem statements_lossless_swapped :
    Expr.ofValue? (object [("PropertyAccessExp",
        object [("column", text "id"), ("table_alias", text "u")])]) =
      some (.property "u" "id") ∧
    Statement.ofValue? (object [("from", object [("Table", object
          [("name", text "users"), ("alias", text "u")])]),
        ("select", list []), ("joins", list []), ("order_by", list [])]) =
      some ⟨[], .table "users" "u", [], []⟩ := by
  refine ⟨(statements_lossless.1 _).2 _ ?_, (statements_lossless.2.1 _).2 _ ?_⟩
  · rw [Expr.toValue]
    exact .record (by rfl) (.cons (.of_perm (.swap ..)) .nil) (.refl _)
  · rw [Statement.toValue, Source.toValue, Join.toValues]
    exact .of_perm (.swap ..)

end FlatAggregate
