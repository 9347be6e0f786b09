import FlatAggregate.Proofs.Plan.Assembled
import FlatAggregate.Proofs.Rows.Chain
import FlatAggregate.Proofs.Rows.Strays

/-!
# How far references reach

A join spreads the foreign keys of its left-most table over all rows of its branch, and names the
root of every row by its identity. It does so by the id of its parent side and the foreign key of
its last child. On a row that an earlier child alone contributes both are absent.

So references reach all rows exactly where no table has two children: the foreign keys of a child
operand in its branch (`foreignKeysReach_iff`), the identity of the outermost join in the whole tree
(`identityReaches_iff`). A database of two families shows what goes wrong elsewhere.
-/

namespace FlatAggregate

variable {T C V : Type}

namespace JoinTree

theorem exists_mem_leaves (tree : JoinTree T C) : ∃ late, late ∈ tree.leaves .child := by
  induction tree with
  | table spec => exact ⟨spec.table, List.mem_cons_self⟩
  | join parent child m o _ ihc =>
      obtain ⟨late, hlate⟩ := ihc
      exact ⟨late, List.mem_append_right _ hlate⟩

theorem exists_missed {side : Side} {tree : JoinTree T C} (h : ¬tree.Unbranched) :
    ∃ late ∈ tree.leaves side, tree.Missed late := by
  induction tree generalizing side with
  | table spec => exact absurd trivial h
  | join left right m o _ ihr =>
      cases left with
      | table spec =>
          obtain ⟨late, hlate, hmissed⟩ : ∃ late ∈ right.leaves .child, right.Missed late := ihr h
          rw [leaves]
          exact ⟨late, List.mem_append_right _ hlate, .inr hmissed⟩
      | join left' right' m' o' =>
          obtain ⟨late, hlate⟩ := right'.exists_mem_leaves
          have hmem : late ∈ (JoinTree.join left' right' m' o').leaves .parent :=
            List.mem_append_right _ hlate
          rw [leaves]
          exact ⟨late, List.mem_append_left _ hmem, .inl (leaves_subset _ hmem)⟩

end JoinTree

namespace Plan

/-- No table of a select has two children: no join at or below it has a join on its parent side. -/
def unbranched (plan : Plan T C) (select : SelectId) : Bool :=
  match plan.selects[select]? with
  | some (.join join) =>
    (plan.scanAt join.parent).isSome &&
      earlier select (fun p _ => plan.unbranched p) true join.child
  | _ => true
termination_by select

variable {plan : Plan T C} {side : Side} {tree : JoinTree T C} {incoming : List ColumnId}
  {first last : Mark} {operand : Operand}

theorem Laid.unbranched_iff (h : plan.Laid side tree incoming first last operand) :
    plan.unbranched operand.select ↔ tree.Unbranched := by
  induction h with
  | scan hscan =>
      rw [TableScan.operand, unbranched, hscan.select]
      simp [JoinTree.Unbranched]
  | view hscan hview _ =>
      rw [TableScan.viewOperand, unbranched, hview]
      simp [JoinTree.Unbranched]
  | @join side left right incoming shown first middle last next parent child multiplicity owner join
      hparent _ hchild hjoin _ ihc =>
      have hlt : join.child < last.select := (hparent.operands_lt hchild hjoin).2
      rw [PlanJoin.operand, unbranched, hjoin.select]
      simp only [earlier, dif_pos hlt, Bool.and_eq_true]
      rw [hjoin.parent_eq, hjoin.child_eq, ihc]
      cases hparent with
      | scan hscan => simp [JoinTree.Unbranched, TableScan.operand, hscan.scanAt]
      | join hparent' _ _ hjoin' =>
          simp [JoinTree.Unbranched, PlanJoin.operand, scanAt, hjoin'.select]

/-- The select of a join tree with a join on top is a join, whose child operand is the select of the
child side. -/
theorem Laid.exists_join {left right : JoinTree T C} {multiplicity : Multiplicity} {owner : T}
    (h : plan.Laid side (.join left right multiplicity owner) incoming first last operand) :
    ∃ (outer : SelectId) (join : PlanJoin) (references : List ColumnId) (middle last' : Mark)
      (child : Operand), plan.selects[outer]? = some (.join join) ∧ references ≠ [] ∧
      plan.Laid .child right references middle last' child ∧ join.child = child.select := by
  obtain ⟨middle, last', next, parent, child, join, shown, -, hid, hchild, hjoin⟩ := h.exists_sides
  exact ⟨last'.select, join, parent.id, middle, last', child, hjoin.select, hid, hchild,
    hjoin.child_eq⟩

/-- If all parents declare ids, a join has an identity, and its left-most table an id. -/
theorem Laid.identity_ne_nil (h : plan.Laid side tree incoming first last operand)
    (hids : tree.ParentsDeclareIds) {join : PlanJoin} {scan : TableScan T}
    (hselect : plan.selects[operand.select]? = some (.join join))
    (hleftmost : plan.leftmost operand.select = some scan) :
    join.identity ≠ [] ∧ ∃ id, scan.id = some id ∧ plan.DeclaresId scan.table id := by
  obtain ⟨mark, _, scan', hscan', hscan, -⟩ := h.leftmost
  obtain rfl := Option.some.inj (hscan'.symm.trans hleftmost)
  cases h with
  | scan hscan => simp [TableScan.operand, hscan.select] at hselect
  | view hscan hview _ => simp [TableScan.viewOperand, hview] at hselect
  | @join _ _ _ _ _ _ _ _ _ _ _ _ _ join' _ hid hchild hjoin =>
      obtain rfl : join' = join := by simpa [PlanJoin.operand, hjoin.select] using hselect
      obtain ⟨id, hscanId⟩ := hscan.exists_id hids.1
      refine ⟨fun hnil => ?_, id, hscanId, mark.select, scan', hscan.scanAt, rfl, hscanId⟩
      have hlength := List.Forall₂.length_eq hjoin.identity
      rw [hnil, List.length_map, List.length_zip, hchild.length_foreignKeys, Nat.min_self]
        at hlength
      exact hid (List.length_eq_zero_iff.mp hlength.symm)

section Missed

variable [DecidableEq T] [Domain V] {whole : JoinTree T C} {top : Operand}
  (hplan : plan.Laid .parent whole [] ⟨0, 0⟩ plan.parts.mark top)

include hplan

/-- In a branched child operand a stray has the foreign key of the wrong family. -/
theorem Laid.not_foreignKeysReach (h : plan.Laid .child tree incoming first last operand)
    (hincoming : incoming ≠ []) (hnodup : tree.tables.Nodup) {late : T}
    (hlate : late ∈ tree.leaves .child) (hmissed : tree.Missed late) :
    ¬plan.ForeignKeysReach (plan.twoFamilies (V := V) late) operand.select := by
  intro hreach
  obtain ⟨a, a', s, s', shownKey, hrows, -, -, hs, -, hshown⟩ :=
    h.rows_strays (V := V) hnodup hlate fun _ => hincoming
  obtain rfl : shownKey = 2 := hshown.resolve_left fun h => h.2 hmissed
  obtain ⟨mark, next, scan, hleftmost, hscan, -⟩ := h.leftmost
  obtain ⟨position, own, hown, hbelongs, hreads⟩ :=
    hreach scan hleftmost s (by rw [hrows]; simp)
  have hfamily : position % 2 = 2 % 2 :=
    hplan.mod_of_reflTransGen (hbelongs.2 late 2 (by rw [hs.source, if_pos rfl]))
  rw [h.offers.2.2.1, twoFamilies_getElem? hown] at hreads
  -- there is a foreign key to compare
  obtain ⟨column, hc⟩ : ∃ column, column ∈ operand.foreignKeys := by
    apply List.exists_mem_of_length_pos
    rw [h.length_foreignKeys]
    exact List.length_pos_of_ne_nil hincoming
  have hmem := List.mem_map_of_mem (f := plan.read s) hc
  rw [← reads, hreads, hs.foreignKey column hc] at hmem
  obtain ⟨foreignKey, hf, heq⟩ := List.mem_map.mp hmem
  rw [hscan.read_foreignKey position hf, ofNumber_inj] at heq
  omega

/-- If a tree is branched, the identity of its join is absent on a stray or is the id of the wrong
family. -/
theorem Laid.not_identityReaches (h : plan.Laid .parent tree incoming first last operand)
    (hids : tree.ParentsDeclareIds) (hnodup : tree.tables.Nodup) (hbranched : ¬tree.Unbranched) :
    ∃ late, ¬plan.IdentityReaches (plan.twoFamilies (V := V) late) operand.select := by
  obtain ⟨late, hlate, hmissed⟩ : ∃ late ∈ tree.leaves .parent, tree.Missed late :=
    JoinTree.exists_missed hbranched
  refine ⟨late, fun hreach => ?_⟩
  obtain ⟨_, _, scan, hleftmost, -, -⟩ := h.leftmost
  have hidentity : ∀ join, plan.selects[operand.select]? = some (.join join) →
      join.identity ≠ [] ∧ ∃ id, scan.id = some id ∧ plan.DeclaresId scan.table id :=
    fun join hselect => h.identity_ne_nil hids hselect hleftmost
  cases h with
  | scan => exact hbranched trivial
  | @join _ left right _ shown _ middle last next parent child multiplicity owner join hparent hid
      hchild hjoin =>
      rw [JoinTree.tables_join] at hnodup
      obtain ⟨hne, id, hscanId, hdeclares⟩ := hidentity join hjoin.select
      obtain ⟨column, hc⟩ := List.exists_mem_of_ne_nil _ hne
      obtain ⟨token, htoken⟩ := hplan.base_of_declaresId hdeclares
      have hrow := hreach join scan id hjoin.select hleftmost hscanId
      rw [JoinTree.leaves, List.mem_append] at hlate
      rcases hlate with hlate | hlate
      · have hnot : late ∉ right.tables := fun h =>
          List.disjoint_of_nodup_append hnodup (left.leaves_subset hlate) h
        obtain ⟨a, a', s, s', shownKey, hrows, ha, ha', hs, hs', hshown⟩ :=
          hparent.rows_strays (V := V) hnodup.of_append_left hlate (by simp)
        obtain ⟨b, b', hrows', hb, hb'⟩ := hchild.rows_families (V := V) hnot fun _ => hid
        obtain ⟨r, r', t, t', hrows, -, -, -, -, hidentity⟩ := hparent.join_left_strays hid hchild
          hjoin ha ha' hb hb' (hshown.imp And.left fun h => h) hs hs' hrows hrows'
        obtain ⟨position, own, -, -, hcolumns⟩ := hrow t (by rw [PlanJoin.operand, hrows]; simp)
        exact (hcolumns column hc).1 (hidentity column hc)
      · have hnot : late ∉ left.tables := fun h =>
          List.disjoint_of_nodup_append hnodup h (right.leaves_subset hlate)
        obtain ⟨a, a', hrows, ha, ha'⟩ := hparent.rows_families (V := V) hnot (by simp)
        obtain ⟨b, b', s, s', shownKey, hrows', hb, hb', hs, hs', hshown⟩ :=
          hchild.rows_strays (V := V) hnodup.of_append_right hlate fun _ => hid
        obtain rfl : shownKey = 2 :=
          hshown.resolve_left fun h => h.2 (hmissed.resolve_left hnot)
        obtain ⟨r, r', t, t', hrows, -, -, ht, -, hidentity⟩ := hparent.join_right_strays hid hchild
          hjoin ha ha' hb hb' (.inr rfl) hs hs' hrows hrows'
        obtain ⟨position, own, hown, hbelongs, hcolumns⟩ :=
          hrow t (by rw [PlanJoin.operand, hrows]; simp)
        have hfamily : position % 2 = 2 % 2 := hplan.mod_of_reflTransGen
          (hbelongs.2 late 2 (by rw [(ht .parent).source, if_pos rfl]))
        have heq := (hcolumns column hc).2
        rw [hidentity column hc, twoFamilies_getElem? hown, familyRow_base htoken,
          ofNumber_inj] at heq
        omega

end Missed

section Grouping

variable [DecidableEq T] [Domain V] {db : Database T V}

/-- In every order of the rows by identity the rows of one row of the left-most table stand side by
side. -/
def KeepsTogether (plan : Plan T C) (db : Database T V) (select : SelectId) : Prop :=
  ∀ join scan, plan.selects[select]? = some (.join join) → plan.leftmost select = some scan →
    ∀ le : List (Option V) → List (Option V) → Prop, (∀ a b, le a b → le b a → a = b) →
    ∀ sorted : List (Tuple T V), sorted.Perm (plan.rows db select) →
      sorted.Pairwise (fun a b => le (plan.reads join.identity a) (plan.reads join.identity b)) →
      ∃ position : Nat → Nat,
        (∀ n row, sorted[n]? = some row → plan.BelongsTo db row (scan.table, position n)) ∧
        ∀ i j k, i < j → j < k → k < sorted.length → position i = position k →
          position j = position i

theorem IdentityReaches.keepsTogether {select : SelectId} (h : plan.IdentityReaches db select)
    (hdb : plan.Consistent db)
    (hid : ∀ join scan, plan.selects[select]? = some (.join join) →
      plan.leftmost select = some scan →
        join.identity ≠ [] ∧ ∃ id, scan.id = some id ∧ plan.DeclaresId scan.table id) :
    plan.KeepsTogether db select := by
  intro join scan hjoin hscan le hle sorted hperm hsorted
  obtain ⟨hidentity, id, hscanId, hdeclares⟩ := hid join scan hjoin hscan
  obtain ⟨column, hc⟩ := List.exists_mem_of_ne_nil _ hidentity
  have hrow : ∀ n : Fin sorted.length, ∃ position own, (db scan.table)[position]? = some own ∧
      plan.BelongsTo db sorted[n] (scan.table, position) ∧
      plan.reads join.identity sorted[n] = join.identity.map fun _ => own id := by
    intro n
    obtain ⟨position, own, hown, hbelongs, hcolumns⟩ := h join scan id hjoin hscan hscanId sorted[n]
      (hperm.subset (List.getElem_mem n.isLt))
    exact ⟨position, own, hown, hbelongs, List.map_congr_left fun c hc => (hcolumns c hc).2⟩
  choose position own hown hbelongs hreads using hrow
  refine ⟨fun n => if hn : n < sorted.length then position ⟨n, hn⟩ else 0, ?_, ?_⟩
  · intro n row hn
    obtain ⟨hlt, rfl⟩ := List.getElem?_eq_some_iff.mp hn
    simp only [dif_pos hlt]
    exact hbelongs ⟨n, hlt⟩
  · intro i j k hij hjk hk hsame
    have hj := Nat.lt_trans hjk hk
    have hi := Nat.lt_trans hij hj
    simp only [dif_pos hi, dif_pos hk] at hsame
    simp only [dif_pos hj, dif_pos hi]
    -- the keys of the outer two rows are equal, so the key between them is no other
    have howns : own ⟨i, hi⟩ = own ⟨k, hk⟩ := by
      have heq := hown ⟨i, hi⟩
      rw [hsame, hown ⟨k, hk⟩] at heq
      exact (Option.some.inj heq).symm
    have hij' := List.pairwise_iff_getElem.mp hsorted i j hi hj hij
    have hjk' := List.pairwise_iff_getElem.mp hsorted j k hj hk hjk
    have hkeys := (hreads ⟨i, hi⟩).trans (howns ▸ (hreads ⟨k, hk⟩).symm)
    simp only [Fin.getElem_fin] at hkeys
    have hsameKey := hle _ _ hij' (hkeys ▸ hjk')
    have hvalues := ((hreads ⟨i, hi⟩).symm.trans hsameKey).trans (hreads ⟨j, hj⟩)
    have hvalue : own ⟨i, hi⟩ id = own ⟨j, hj⟩ id :=
      List.map_inj_left.mp hvalues column hc
    exact hdb.position_unique hdeclares (hown ⟨j, hj⟩) (hown ⟨i, hi⟩) hvalue.symm

end Grouping

end Plan

namespace Draft

variable [DecidableEq T] [ToString T] [Domain V] {root : TableSpec T C}
  {additions : List (Addition T C)} {draft : Draft T C} {plan : Plan T C}

/-- If all parents declare ids, the foreign keys of the child operand of a join reach all rows of
every consistent database exactly when no table in the branch has two children. -/
theorem foreignKeysReach_iff (h : assemble root additions = .ok draft)
    (hplan : draft.plan = .ok plan) (hids : Addition.ParentsDeclareIds root additions)
    {outer : SelectId} {join : PlanJoin} (houter : plan.selects[outer]? = some (.join join)) :
    (∀ db : Database T V, plan.Consistent db → plan.ForeignKeysReach db join.child) ↔
      plan.unbranched join.child := by
  obtain ⟨top, hlaid, -, hnodup, -⟩ := laid_of_assemble h hplan
  have htreeIds := AggregateTree.parentsDeclareIds hids
  obtain ⟨left, right, multiplicity, owner, incoming, first, middle, last, next, parent, child,
    shown, hpart, hleft, hid, hright, hjoin, rfl⟩ := hlaid.exists_hasJoin_of_select houter
  have hpartIds := htreeIds.of_mem_parts hpart
  have hpartNodup := (JoinTree.sublist_of_mem_parts hpart).nodup hnodup
  rw [JoinTree.tables_join] at hpartNodup
  rw [hjoin.child_eq, hright.unbranched_iff]
  constructor
  · intro hall
    by_contra hbranched
    obtain ⟨late, hlate, hmissed⟩ : ∃ late ∈ right.leaves .child, right.Missed late :=
      JoinTree.exists_missed hbranched
    exact hlaid.not_foreignKeysReach (V := V) hright hid hpartNodup.of_append_right hlate hmissed
      (hall _ (hlaid.consistent_twoFamilies htreeIds late))
  · exact fun hunbranched db hdb =>
      Plan.Laid.foreignKeysReach hlaid hdb hright hunbranched hpartIds.2.2

/-- A root with a chain of two tables below it. -/
theorem foreignKeysReach_iff_chain :
    let root : TableSpec Nat Nat := { table := 0, id := some 10 }
    let additions : List (Addition Nat Nat) :=
      [⟨0, .multiple, { table := 1, id := some 11 }⟩, ⟨1, .multiple, { table := 2 }⟩]
    Addition.ParentsDeclareIds root additions ∧
      ∃ (draft : Draft Nat Nat) (plan : Plan Nat Nat) (outer : SelectId) (join : PlanJoin),
      assemble root additions = .ok draft ∧ draft.plan = .ok plan ∧
      plan.selects[outer]? = some (.join join) ∧
      ((∀ db : Database Nat Int, plan.Consistent db → plan.ForeignKeysReach db join.child) ↔
        plan.unbranched join.child) := by
  intro root additions
  have hids : Addition.ParentsDeclareIds root additions := by
    simp [Addition.ParentsDeclareIds, root, additions]
  obtain ⟨draft, h⟩ : ∃ draft, assemble root additions = .ok draft := ⟨_, rfl⟩
  obtain ⟨-, plan, hplan⟩ := plan_of_assemble h
  obtain ⟨top, hlaid, -⟩ := laid_of_assemble h hplan
  obtain ⟨outer, join, -, -, -, -, houter, -⟩ := Plan.Laid.exists_join hlaid
  exact ⟨hids, draft, plan, outer, join, h, hplan, houter,
    foreignKeysReach_iff h hplan hids houter⟩

/-- A root with a child that has two children: a row of the first of these without a partner gets
the foreign key of another row. -/
theorem not_foreignKeysReach_of_siblings :
    let root : TableSpec Nat Nat := { table := 0, id := some 10 }
    let additions : List (Addition Nat Nat) :=
      [⟨0, .multiple, { table := 1, id := some 11 }⟩, ⟨1, .multiple, { table := 2 }⟩,
        ⟨1, .multiple, { table := 3 }⟩]
    Addition.ParentsDeclareIds root additions ∧
      ∃ (draft : Draft Nat Nat) (plan : Plan Nat Nat) (outer : SelectId) (join : PlanJoin),
      assemble root additions = .ok draft ∧ draft.plan = .ok plan ∧
      plan.selects[outer]? = some (.join join) ∧
      ∃ db : Database Nat Int, plan.Consistent db ∧ ¬plan.ForeignKeysReach db join.child := by
  intro root additions
  have hids : Addition.ParentsDeclareIds root additions := by
    simp [Addition.ParentsDeclareIds, root, additions]
  obtain ⟨draft, h⟩ : ∃ draft, assemble root additions = .ok draft := ⟨_, rfl⟩
  obtain ⟨-, plan, hplan⟩ := plan_of_assemble h
  obtain ⟨top, hlaid, -⟩ := laid_of_assemble h hplan
  have hconsistent :=
    hlaid.consistent_twoFamilies (V := Int) (AggregateTree.parentsDeclareIds hids) 2
  obtain ⟨outer, join, references, _, _, child, houter, hreferences, hchild, heq⟩ :=
    Plan.Laid.exists_join hlaid
  refine ⟨hids, draft, plan, outer, join, h, hplan, houter, _, hconsistent, ?_⟩
  rw [heq]
  have hbranch : plan.Laid .child (.join (.join (.table { table := 1, id := some 11 })
      (.table { table := 2 }) .multiple 1) (.table { table := 3 }) .multiple 1) references _ _
      child := hchild
  exact hlaid.not_foreignKeysReach hbranch hreferences (by simp)
    (by simp [JoinTree.leaves]) (.inl (by simp))

/-- If all parents declare ids, the identity of the outermost join reaches all rows of every
consistent database exactly when no table has two children. Then ordering the rows by it keeps the
rows of every root together. -/
theorem identityReaches_iff (h : assemble root additions = .ok draft)
    (hplan : draft.plan = .ok plan) (hids : Addition.ParentsDeclareIds root additions) :
    ((∀ db : Database T V, plan.Consistent db → plan.IdentityReaches db plan.root) ↔
      ∀ table, (additions.filter (·.parent = table)).length ≤ 1) ∧
    ((∀ table, (additions.filter (·.parent = table)).length ≤ 1) →
      ∀ db : Database T V, plan.Consistent db → plan.KeepsTogether db plan.root) := by
  obtain ⟨top, hlaid, hroot, hnodup, hspined⟩ := laid_of_assemble h hplan
  have htreeIds := AggregateTree.parentsDeclareIds hids
  have hunbranched : (AggregateTree.ofAdditions root additions).joinTree.Unbranched ↔
      ∀ table, (additions.filter (·.parent = table)).length ≤ 1 := by
    rw [JoinTree.unbranched_iff hspined hnodup]
    exact forall_congr' fun table => by rw [childrenOf_of_assemble h]
  rw [hroot, ← hunbranched]
  refine ⟨⟨fun hall => ?_, fun hunbranched db hdb => ?_⟩, fun hunbranched db hdb => ?_⟩
  · by_contra hbranched
    obtain ⟨late, hnot⟩ := hlaid.not_identityReaches (V := V) hlaid htreeIds hnodup hbranched
    exact hnot (hall _ (hlaid.consistent_twoFamilies htreeIds late))
  · exact Plan.Laid.identityReaches hlaid hdb hlaid hunbranched htreeIds
  · exact (Plan.Laid.identityReaches hlaid hdb hlaid hunbranched htreeIds).keepsTogether hdb
      fun join scan => hlaid.identity_ne_nil htreeIds

/-- A root with a chain of two tables below it. -/
theorem identityReaches_iff_chain :
    let root : TableSpec Nat Nat := { table := 0, id := some 10 }
    let additions : List (Addition Nat Nat) :=
      [⟨0, .multiple, { table := 1, id := some 11 }⟩, ⟨1, .multiple, { table := 2 }⟩]
    Addition.ParentsDeclareIds root additions ∧ ∃ (draft : Draft Nat Nat) (plan : Plan Nat Nat),
      assemble root additions = .ok draft ∧ draft.plan = .ok plan ∧
      (∀ table, (additions.filter (·.parent = table)).length ≤ 1) ∧
      (∀ db : Database Nat Int, plan.Consistent db → plan.IdentityReaches db plan.root) ∧
      ∀ db : Database Nat Int, plan.Consistent db → plan.KeepsTogether db plan.root := by
  intro root additions
  have hids : Addition.ParentsDeclareIds root additions := by
    simp [Addition.ParentsDeclareIds, root, additions]
  obtain ⟨draft, h⟩ : ∃ draft, assemble root additions = .ok draft := ⟨_, rfl⟩
  obtain ⟨-, plan, hplan⟩ := plan_of_assemble h
  have hlength : ∀ table, (additions.filter (·.parent = table)).length ≤ 1 := by
    intro table
    by_cases h0 : 0 = table
    · simp [additions, ← h0]
    · by_cases h1 : 1 = table <;> simp [additions, h0, h1]
  obtain ⟨hiff, htogether⟩ := identityReaches_iff (V := Int) h hplan hids
  exact ⟨hids, draft, plan, h, hplan, hlength, hiff.mpr hlength, htogether hlength⟩

/-- A root with two children: on a row of the first of these without a partner the identity is
absent. -/
theorem not_identityReaches_of_siblings :
    let root : TableSpec Nat Nat := { table := 0, id := some 10 }
    let additions : List (Addition Nat Nat) :=
      [⟨0, .multiple, { table := 1 }⟩, ⟨0, .multiple, { table := 2 }⟩]
    Addition.ParentsDeclareIds root additions ∧ ∃ (draft : Draft Nat Nat) (plan : Plan Nat Nat),
      assemble root additions = .ok draft ∧ draft.plan = .ok plan ∧
      ∃ db : Database Nat Int, plan.Consistent db ∧ ¬plan.IdentityReaches db plan.root := by
  intro root additions
  have hids : Addition.ParentsDeclareIds root additions := by
    simp [Addition.ParentsDeclareIds, root, additions]
  obtain ⟨draft, h⟩ : ∃ draft, assemble root additions = .ok draft := ⟨_, rfl⟩
  obtain ⟨-, plan, hplan⟩ := plan_of_assemble h
  obtain ⟨top, hlaid, hroot, hnodup, -⟩ := laid_of_assemble h hplan
  have htreeIds := AggregateTree.parentsDeclareIds hids
  obtain ⟨late, hnot⟩ := hlaid.not_identityReaches (V := Int) hlaid htreeIds hnodup fun h => h
  exact ⟨hids, draft, plan, h, hplan, _, hlaid.consistent_twoFamilies htreeIds late, hroot ▸ hnot⟩

end Draft

end FlatAggregate
