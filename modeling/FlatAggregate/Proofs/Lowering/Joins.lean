import FlatAggregate.Proofs.Lowering.SelectLists

/-!
# The level of a join

The scope of a join lists the columns of both sides. The columns that the join compares are in
scope, or they are the literal row number of a bare table; so the conditions are tested on a pair of
rows as the plan tests them, and the level has the pairs of the plan as its rows. The join's own
columns are not in scope: they are computed, and the operands of each have expressions.
-/

namespace FlatAggregate

variable {T C V : Type} [Domain V]

section Conditions

variable {plan : Plan T C} {scope : Scope} {sources : Sources}
  {stands : LevelRow V → Tuple T V → Prop}

theorem Lowering.exists_conditions {conditions : List JoinCondition}
    (h : ∀ condition ∈ conditions,
      plan.Expresses scope sources stands condition.left (plan.read · condition.left) ∧
        plan.Expresses scope sources stands condition.right (plan.read · condition.right)) :
    ∃ operations tests, conditions.mapM (condition plan scope) = .ok operations ∧
      operations.mapM (Operation.test sources) = some tests ∧
      ∀ row tuple, stands row tuple → tests.all (· row) = conditions.all fun compared =>
        sameValue (plan.read tuple compared.left) (plan.read tuple compared.right) := by
  induction conditions with
  | nil => exact ⟨[], [], rfl, rfl, fun _ _ _ => rfl⟩
  | cons compared conditions ih =>
      obtain ⟨⟨left, hleft, reading, hreading, hvalue⟩, right, hright, reading', hreading',
        hvalue'⟩ := h compared List.mem_cons_self
      obtain ⟨operations, tests, hoperations, htests, hagree⟩ :=
        ih fun other ho => h other (List.mem_cons_of_mem _ ho)
      refine ⟨Expr.equals left right :: operations,
        (fun row => sameValue (reading row) (reading' row)) :: tests, ?_, ?_, ?_⟩
      · rw [List.mapM_cons, hoperations, condition, hleft, hright]
        rfl
      · simp [Operation.test, Expr.equals, hreading, hreading', htests]
      · intro row tuple hstands
        simp only [List.all_cons, hagree row tuple hstands, hvalue row tuple hstands,
          hvalue' row tuple hstands]

/-- The level of two joined sources has the pairs of the plan as its rows. -/
theorem SourceView.exists_join {left right : SourceView V} {label : ColumnId → String}
    {leftColumns rightColumns : List ColumnId} {leftTuples rightTuples : List (Tuple T V)}
    {first middle last : Mark} {conditions : List JoinCondition} {operations : List Operation}
    {tests : List (LevelRow V → Bool)} (hleft : left.Presents plan label leftColumns leftTuples)
    (hright : right.Presents plan label rightColumns rightTuples)
    (hleftWithin : ∀ tuple ∈ leftTuples, tuple.Within first middle)
    (hrightWithin : ∀ tuple ∈ rightTuples, tuple.Within middle last)
    (htests : operations.mapM (Operation.test (left.level.sources ++ right.level.sources)) =
      some tests)
    (hagree : ∀ row tuple, left.StandTogether right first middle last row tuple →
      tests.all (· row) = conditions.all fun compared =>
        sameValue (plan.read tuple compared.left) (plan.read tuple compared.right)) :
    ∃ level, left.level.join right.level operations = some level ∧
      level.sources = left.level.sources ++ right.level.sources ∧
      List.Forall₂ (left.StandTogether right first middle last) level.rows
        ((fullOuter (plan.agree conditions) leftTuples rightTuples).map Tuple.merge) := by
  have hrows : List.Forall₂ (fun row tuple => left.Stands row tuple ∧ tuple.Within first middle)
      left.level.rows leftTuples :=
    (((List.forall₂_and_left _ _).mpr ⟨hleftWithin, hleft.stands.flip⟩).flip).imp
      fun _ _ h => ⟨h.2, h.1⟩
  have hrows' : List.Forall₂ (fun row tuple => right.Stands row tuple ∧ tuple.Within middle last)
      right.level.rows rightTuples :=
    (((List.forall₂_and_left _ _).mpr ⟨hrightWithin, hright.stands.flip⟩).flip).imp
      fun _ _ h => ⟨h.2, h.1⟩
  refine ⟨_, by rw [Level.join, htests]; rfl, rfl, ?_⟩
  rw [List.forall₂_map_left_iff, List.forall₂_map_right_iff]
  refine (forall₂_fullOuter hrows hrows' ?_).imp ?_
  · intro a c b d ha hb
    refine hagree _ _ ⟨(some a, some b), (some c, some d), .some ha.1, .some hb.1, ?_, rfl, rfl⟩
    exact ⟨fun row e => Option.some.inj e ▸ ha.2, fun row e => Option.some.inj e ▸ hb.2⟩
  · rintro sides pair ⟨ha, hb⟩
    obtain ⟨hstands, hwithin⟩ := stands_of_rel ha
    obtain ⟨hstands', hwithin'⟩ := stands_of_rel hb
    exact ⟨sides, pair, hstands, hstands', ⟨hwithin, hwithin'⟩, rfl, rfl⟩

end Conditions

namespace Plan

variable {plan : Plan T C} {side : Side} {left right : JoinTree T C}
  {incoming shown : List ColumnId} {first middle last : Mark} {next : Nat} {parent child : Operand}
  {multiplicity : Multiplicity} {join : PlanJoin} {scope : Scope} {sources : Sources}
  {stands : LevelRow V → Tuple T V → Prop}

theorem HasJoin.computed_identity
    (hjoin : plan.HasJoin parent child multiplicity last next join shown)
    (pair : Option (Tuple T V) × Option (Tuple T V)) :
    join.identity.map (plan.computed [] 0 (Tuple.merge pair)) =
      plan.pairKey (parent.id.zip child.foreignKeys) pair :=
  hjoin.identity.map_congr fun _ _ _ _ heq => by rw [computed, heq]

/-- The row at a position of a join is made from the pair for which the row of the level stands. -/
theorem exists_pair_of_getElem? {rows : List (LevelRow V)}
    {pairs : List (Option (Tuple T V) × Option (Tuple T V))}
    (hrows : List.Forall₂ stands rows (pairs.map Tuple.merge)) {position : Nat} {row : LevelRow V}
    {final : Tuple T V} (hrow : rows[position]? = some row)
    (hfinal : (pairs.map (plan.joined join pairs))[position]? = some final) :
    ∃ pair, stands row (Tuple.merge pair) ∧ final = plan.joined join pairs pair := by
  obtain ⟨tuple, htuple, hstands⟩ := exists_getElem?_of_forall₂ hrows hrow
  rw [List.getElem?_map, Option.map_eq_some_iff] at htuple hfinal
  obtain ⟨pair, hpair, rfl⟩ := htuple
  obtain ⟨pair', hpair', rfl⟩ := hfinal
  obtain rfl : pair = pair' := Option.some.inj (hpair.symm.trans hpair')
  exact ⟨pair, hstands, rfl⟩

section Scoped

variable (hparent : plan.Laid .parent left incoming first middle parent)
  (hchild : plan.Laid .child right parent.id middle last child)
  (hscope : scope.ShownBy sources stands)
  (hcolumns : scope.map Prod.fst = (parent.columns ++ child.columns).map plan.canonical)

include hparent hchild hscope hcolumns

theorem Laid.expresses_operand {column : ColumnId}
    (hc : column ∈ parent.id ++ parent.foreignKeys ++ parent.columns ∨
      column ∈ child.id ++ child.foreignKeys ++ child.columns) :
    plan.Expresses scope sources stands column (plan.read · column) := by
  refine expresses_shown hscope ?_ ?_
  · rw [hcolumns, List.map_append, List.mem_append]
    exact hc.imp hparent.canonical_mem hchild.canonical_mem
  · exact fun value => hc.elim (hparent.not_literal · value) (hchild.not_literal · value)

/-- The row number of the parent side is in scope, or it is a literal. -/
theorem Laid.expresses_parent_rowNumber :
    plan.Expresses scope sources stands parent.rowNumber (plan.read · parent.rowNumber) := by
  rcases hparent.rowNumber_mem with hmem | ⟨-, hliteral⟩
  · exact hparent.expresses_operand hchild hscope hcolumns (.inl (List.mem_append_right _ hmem))
  · refine expresses_literal (fun hmem => ?_) hliteral
    rw [hcolumns] at hmem
    obtain ⟨column, hc, heq⟩ := List.mem_map.mp hmem
    rcases List.mem_append.mp hc with hc | hc
    · exact hparent.not_literal (List.mem_append_right _ hc) 1 (heq ▸ hliteral)
    · exact hchild.not_literal (List.mem_append_right _ hc) 1 (heq ▸ hliteral)

theorem Laid.expresses_child_rowNumber :
    plan.Expresses scope sources stands child.rowNumber (plan.read · child.rowNumber) := by
  have hmem : child.rowNumber ∈ child.columns :=
    hchild.rowNumber_mem.resolve_right fun h => absurd h.1 (by simp)
  exact hparent.expresses_operand hchild hscope hcolumns (.inr (List.mem_append_right _ hmem))

variable (hjoin : plan.HasJoin parent child multiplicity last next join shown)

include hjoin

omit hscope in
theorem HasJoin.own_not_mem_scope {column : ColumnId} (hc : column ∈ join.ownColumns) :
    column ∉ scope.map Prod.fst := fun hmem => by
  rw [hcolumns] at hmem
  obtain ⟨source, hs, rfl⟩ := List.mem_map.mp hmem
  refine hjoin.canonical_front (hparent.front hchild source ?_) hc
  rcases List.mem_append.mp hs with hs | hs <;> simp [Operand.handles, hs]

/-- The identity and the row number of a join are computed from both sides. -/
theorem HasJoin.expresses_greatest {column : ColumnId}
    (hc : column ∈ join.identity ++ [join.rowNumber]) :
    plan.Expresses scope sources stands column (plan.computed [] 0 · column) := by
  have hown : column ∈ join.ownColumns := List.mem_append_left _ hc
  have hfront := hparent.front hchild
  have hle : last.column ≤ column :=
    (hjoin.mem_range (List.mem_append_left _ (List.mem_append_left _ hown))).1
  have hmem := hjoin.own_not_mem_scope hparent hchild hcolumns hown
  rcases List.mem_append.mp hc with hc | hc
  · obtain ⟨⟨l, r⟩, hpair, heq⟩ := hjoin.identity.exists_source hc
    obtain ⟨hl, hr⟩ := List.of_mem_zip hpair
    refine Plan.expresses_greatest hmem heq ?_ ?_ ?_ ?_
    · exact Nat.lt_of_lt_of_le (hfront l (by simp [Operand.handles, hl])) hle
    · exact Nat.lt_of_lt_of_le (hfront r (by simp [Operand.handles, hr])) hle
    · exact hparent.expresses_operand hchild hscope hcolumns (.inl (by simp [hl]))
    · exact hparent.expresses_operand hchild hscope hcolumns (.inr (by simp [hr]))
  · obtain rfl := List.mem_singleton.mp hc
    refine Plan.expresses_greatest hmem hjoin.rowNumber ?_ ?_ ?_ ?_
    · exact Nat.lt_of_lt_of_le (hfront _ (by simp [Operand.handles])) hle
    · exact Nat.lt_of_lt_of_le (hfront _ (by simp [Operand.handles])) hle
    · exact hparent.expresses_parent_rowNumber hchild hscope hcolumns
    · exact hparent.expresses_child_rowNumber hchild hscope hcolumns

theorem HasJoin.expresses_conditions :
    ∀ compared ∈ join.conditions,
      plan.Expresses scope sources stands compared.left (plan.read · compared.left) ∧
        plan.Expresses scope sources stands compared.right (plan.read · compared.right) := by
  intro compared hc
  rw [hjoin.conditions] at hc
  rcases List.mem_append.mp hc with hc | hc
  · obtain ⟨⟨l, r⟩, hpair, rfl⟩ := List.mem_map.mp hc
    obtain ⟨hl, hr⟩ := List.of_mem_zip hpair
    exact ⟨hparent.expresses_operand hchild hscope hcolumns (.inl (by simp [hl])),
      hparent.expresses_operand hchild hscope hcolumns (.inr (by simp [hr]))⟩
  · rw [List.mem_singleton.mp hc]
    exact ⟨hparent.expresses_parent_rowNumber hchild hscope hcolumns,
      hparent.expresses_child_rowNumber hchild hscope hcolumns⟩

end Scoped

section Levels

variable {level : Level V} {pairs : List (Option (Tuple T V) × Option (Tuple T V))}
  {column : ColumnId} (hparent : plan.Laid .parent left incoming first middle parent)
  (hchild : plan.Laid .child right parent.id middle last child)
  (hscope : scope.ShownBy level.sources stands)
  (hcolumns : scope.map Prod.fst = (parent.columns ++ child.columns).map plan.canonical)
  (hjoin : plan.HasJoin parent child multiplicity last next join shown)
  (hrows : List.Forall₂ stands level.rows (pairs.map Tuple.merge))

include hparent hchild hscope hcolumns hjoin hrows

theorem HasJoin.gives_shown (hc : column ∈ shown) :
    ∃ expr, plan.expression scope column = .ok expr ∧
      expr.Gives plan level (pairs.map (plan.joined join pairs)) column := by
  have hfront := hparent.front hchild
  have hcanonical : plan.canonical column ∈ (parent.columns ++ child.columns).map plan.canonical :=
    hjoin.map_canonical_shown hfront ▸ List.mem_map_of_mem hc
  obtain ⟨source, hs, heq⟩ := List.mem_map.mp hcanonical
  have hsource : source ∈ parent.handles ++ child.handles := by
    rcases List.mem_append.mp hs with hs | hs <;> simp [Operand.handles, hs]
  have hliteral : ∀ value, plan.columns[plan.canonical column]? ≠ some (.literal value) := by
    rw [← heq]
    rcases List.mem_append.mp hs with hs | hs
    · exact hparent.not_literal (List.mem_append_right _ hs)
    · exact hchild.not_literal (List.mem_append_right _ hs)
  obtain ⟨expr, hexpr, hdenotes⟩ := expresses_shown hscope (hcolumns ▸ hcanonical) hliteral
  refine ⟨expr, hexpr, hdenotes.gives fun position row final hrow hfinal => ?_⟩
  obtain ⟨pair, hstands, rfl⟩ := exists_pair_of_getElem? hrows hrow hfinal
  refine ⟨_, hstands, read_joined_of_not_mem ?_⟩
  rw [← heq]
  exact hjoin.canonical_front (hfront source hsource)

/-- The identity and the row number are read off every row of the level. -/
theorem HasJoin.gives_greatest (hc : column ∈ join.identity ++ [join.rowNumber]) :
    ∃ expr, plan.expression scope column = .ok expr ∧
      expr.Gives plan level (pairs.map (plan.joined join pairs)) column := by
  obtain ⟨expr, hexpr, hdenotes⟩ := hjoin.expresses_greatest hparent hchild hscope hcolumns hc
  refine ⟨expr, hexpr, hdenotes.gives fun position row final hrow hfinal => ?_⟩
  obtain ⟨pair, hstands, rfl⟩ := exists_pair_of_getElem? hrows hrow hfinal
  obtain ⟨l, r, role, heq⟩ := hjoin.greatest_of_mem hc
  exact ⟨_, hstands, by rw [hjoin.read_greatest hc heq, computed, heq]⟩

theorem HasJoin.gives_foreignKey (hc : column ∈ join.foreignKeys) :
    ∃ expr, plan.expression scope column = .ok expr ∧
      expr.Gives plan level (pairs.map (plan.joined join pairs)) column := by
  have hfront := hparent.front hchild
  have hown : column ∈ join.ownColumns := List.mem_append_right _ hc
  have hle : last.column ≤ column :=
    (hjoin.mem_range (List.mem_append_left _ (List.mem_append_left _ hown))).1
  obtain ⟨source, hs, heq⟩ := hjoin.maxOver_of_mem hc
  obtain ⟨expr, keys, hexpr, hdenotes, hkeys⟩ := expression_maxOver
    (hjoin.own_not_mem_scope hparent hchild hcolumns hown) heq
    (Nat.lt_of_lt_of_le (hfront source (by simp [Operand.handles, hs])) hle)
    (fun key hkey => hjoin.identity_lt hkey hc)
    (hparent.expresses_operand hchild hscope hcolumns (.inl (by simp [hs])))
    (fun key hkey => hjoin.expresses_greatest hparent hchild hscope hcolumns
      (List.mem_append_left _ hkey))
  obtain ⟨reading, hreading, hvalue⟩ := Expr.itemReading_max hdenotes hkeys
  refine ⟨_, hexpr, reading, hreading, fun position row final hrow hfinal => ?_⟩
  obtain ⟨pair, hstands, rfl⟩ := exists_pair_of_getElem? hrows hrow hfinal
  have hidentity : ∀ other : Option (Tuple T V) × Option (Tuple T V),
      (join.identity.map fun key (t : Tuple T V) => plan.computed [] 0 t key).map
        (· (Tuple.merge other)) = plan.pairKey (parent.id.zip child.foreignKeys) other := by
    intro other
    rw [List.map_map]
    exact hjoin.computed_identity other
  rw [hvalue _ _ hrows position row _ hstands, hjoin.read_foreignKey hfront hc hs heq,
    hidentity, List.map_map, List.map_map]
  congr 1
  exact List.map_congr_left fun other _ => hidentity other

/-- A level whose rows stand for the pairs of a join gives all columns of the join. -/
theorem HasJoin.gives (hc : column ∈ join.columns) :
    ∃ expr, plan.expression scope column = .ok expr ∧
      expr.Gives plan level (pairs.map (plan.joined join pairs)) column := by
  rw [hjoin.columns, PlanJoin.ownColumns] at hc
  rcases List.mem_append.mp hc with hc | hc
  · exact hjoin.gives_shown hparent hchild hscope hcolumns hrows hc
  · rcases List.mem_append.mp hc with hc | hc
    · exact hjoin.gives_greatest hparent hchild hscope hcolumns hrows hc
    · exact hjoin.gives_foreignKey hparent hchild hscope hcolumns hrows hc

end Levels

section Sides

variable [DecidableEq T] {leftView rightView : SourceView V} {label : ColumnId → String}
  {db : Database T V}
  (hparent : plan.Laid .parent left incoming first middle parent)
  (hchild : plan.Laid .child right parent.id middle last child)
  (hleft : leftView.Presents plan label parent.columns (plan.rows db parent.select))
  (hright : rightView.Presents plan label child.columns (plan.rows db child.select))

include hparent hchild hleft hright

theorem Laid.shownBy_sides (hne : leftView.aliasName ≠ rightView.aliasName) :
    (leftView.scope ++ rightView.scope).ShownBy
      (leftView.level.sources ++ rightView.level.sources)
      (leftView.StandTogether rightView first middle last (T := T)) := by
  refine SourceView.shownBy_append hleft hright hne ?_ ?_
  · intro column hc
    exact Nat.lt_of_le_of_lt (plan.canonical_le column)
      (hparent.within (by simp [Operand.handles, hc])).2
  · intro column hc
    exact (hchild.within (by simp [Operand.handles, hc])).1

/-- The join of the sources of both sides gives the columns of the join. -/
theorem HasJoin.exists_level
    (hjoin : plan.HasJoin parent child multiplicity last next join shown)
    (hne : leftView.aliasName ≠ rightView.aliasName) :
    ∃ operations level,
      join.conditions.mapM (Lowering.condition plan (leftView.scope ++ rightView.scope)) =
        .ok operations ∧
      leftView.level.join rightView.level operations = some level ∧
      level.rows.length = (plan.rows db last.select).length ∧
      ∀ column ∈ join.columns, ∃ expr,
        plan.expression (leftView.scope ++ rightView.scope) column = .ok expr ∧
          expr.Gives plan level (plan.rows db last.select) column := by
  have hscope := hparent.shownBy_sides hchild hleft hright hne
  have hcolumns : (leftView.scope ++ rightView.scope).map Prod.fst =
      (parent.columns ++ child.columns).map plan.canonical := by
    rw [List.map_append, List.map_append, SourceView.map_fst_scope, SourceView.map_fst_scope,
      hleft.columns_eq, hright.columns_eq]
  obtain ⟨operations, tests, hoperations, htests, hagree⟩ :=
    Lowering.exists_conditions (hjoin.expresses_conditions hparent hchild hscope hcolumns)
  obtain ⟨level, hlevel, hsources, hrows⟩ := SourceView.exists_join hleft hright
    (hparent.rows_within db) (hchild.rows_within db) htests hagree
  have hpairs : fullOuter (plan.agree join.conditions) (plan.rows db parent.select)
      (plan.rows db child.select) = plan.pairs db join := by
    rw [pairs, hjoin.parent_eq, hjoin.child_eq]
  rw [hpairs] at hrows
  rw [← hsources] at hscope
  rw [hparent.rows_eq db hchild hjoin]
  refine ⟨operations, level, hoperations, hlevel, ?_, fun column hc => ?_⟩
  · rw [hrows.length_eq, List.length_map, List.length_map]
  · exact hjoin.gives hparent hchild hscope hcolumns hrows hc

end Sides

end Plan

end FlatAggregate
