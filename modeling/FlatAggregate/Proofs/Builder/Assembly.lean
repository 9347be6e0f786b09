import FlatAggregate.Proofs.Builder.AggregateTree
import FlatAggregate.Proofs.Plan.Building
import Mathlib.Data.List.Induction

/-!
# Assembling a draft

`Draft.assemble` adds a root and then further tables, and succeeds when every addition is accepted.
The draft then holds the join tree of the aggregate tree of these additions (`assemble_holds`), and
its plan is the plan of that tree.

Accepted additions come parents first: no table gets a child before it is added itself. So the
branches below a table are determined by the additions below each table, in their order
(`ofAdditions_eq_map`), and not by how additions below different tables are interleaved
(`ofAdditions_congr`).

All this is by recursion on the root and the list of additions, so in statements on drafts any order
of calls is covered in which no call is refused.
-/

namespace FlatAggregate

theorem exists_of_bind_eq_ok {E A B : Type} {x : Except E A} {f : A → Except E B} {b : B}
    (h : x >>= f = .ok b) : ∃ a, x = .ok a ∧ f a = .ok b := by
  cases x with
  | error error => simp [bind, Except.bind] at h
  | ok a => exact ⟨a, rfl, h⟩

variable {T C : Type} [DecidableEq T]

namespace Draft

variable [ToString T]

def add (draft : Draft T C) (addition : Addition T C) : Except JoinTreeError (Draft T C) :=
  draft.addChild addition.parent addition.multiplicity addition.spec

def assemble (root : TableSpec T C) (additions : List (Addition T C)) :
    Except JoinTreeError (Draft T C) := do
  additions.foldlM add (← empty.addRoot root)

theorem assemble_append_singleton_eq (root : TableSpec T C) (additions : List (Addition T C))
    (addition : Addition T C) :
    assemble root (additions ++ [addition]) =
      assemble root additions >>= fun before => before.add addition := by
  simp only [assemble, List.foldlM_append, List.foldlM_cons, List.foldlM_nil, bind_assoc,
    bind_pure]

theorem assemble_append_singleton {root : TableSpec T C} {additions : List (Addition T C)}
    {addition : Addition T C} {draft : Draft T C}
    (h : assemble root (additions ++ [addition]) = .ok draft) :
    ∃ before, assemble root additions = .ok before ∧ before.add addition = .ok draft := by
  rw [assemble_append_singleton_eq] at h
  exact exists_of_bind_eq_ok h

theorem Holds.add {draft draft' : Draft T C} {tree : NodeTree T C} {addition : Addition T C}
    (h : draft.Holds tree) (ha : draft.add addition = .ok draft') :
    addition.parent ∈ tree.tree.tables ∧ addition.spec.table ∉ tree.tree.tables ∧
      ∃ tree', draft'.Holds tree' ∧
        tree'.tree = tree.tree.attach addition.parent addition.multiplicity addition.spec := by
  rw [Draft.add, h.addChild_eq] at ha
  split_ifs at ha with hp hs hi
  obtain rfl := Except.ok.inj ha
  obtain ⟨node, spec, hnode, -⟩ := h.held.lookup_table hp
  have hid : addition.parent = tree.tree.owner → tree.tree.rootSpec.hasIdentity := by
    intro howner
    by_contra hid
    exact hi ⟨howner, hid⟩
  rw [hnode, Option.getD_some]
  exact ⟨hp, hs, _, h.graft addition.multiplicity addition.spec hnode hs hid,
    NodeTree.tree_attach tree⟩

/-- An assembled draft holds the join tree of its aggregate tree, whatever the order of the
additions. -/
theorem assemble_holds {root : TableSpec T C} {additions : List (Addition T C)}
    {draft : Draft T C} (h : assemble root additions = .ok draft) :
    ∃ tree, draft.Holds tree ∧
      tree.tree = (AggregateTree.ofAdditions root additions).joinTree ∧
      ∀ addition ∈ additions, addition.parent ∈ tree.tree.tables := by
  induction additions using List.reverseRecOn generalizing draft with
  | nil =>
      obtain ⟨start, hstart, hholds⟩ := empty_addRoot root
      rw [assemble, hstart] at h
      obtain rfl : start = draft := Except.ok.inj h
      exact ⟨_, hholds, rfl, by simp⟩
  | append_singleton additions addition ih =>
      obtain ⟨before, hbefore, hadd⟩ := assemble_append_singleton h
      obtain ⟨tree, hholds, htree, hparents⟩ := ih hbefore
      obtain ⟨hparent, -, tree', hholds', htree'⟩ := hholds.add hadd
      have hspecs := (JoinTree.specs_attach_perm addition.multiplicity addition.spec
        hholds.spined hholds.tables_nodup hparent).map TableSpec.table
      have hmem : ∀ t ∈ tree.tree.tables, t ∈ tree'.tree.tables := fun t ht => by
        rw [htree']
        exact hspecs.mem_iff.mpr (List.mem_cons_of_mem _ ht)
      refine ⟨tree', hholds', ?_, ?_⟩
      · rw [AggregateTree.ofAdditions_append_singleton, AggregateTree.joinTree_insert, htree',
          htree]
        exact htree ▸ hholds.tables_nodup
      · intro a ha
        rcases List.mem_append.mp ha with ha | ha
        · exact hmem _ (hparents a ha)
        · rw [List.mem_singleton.mp ha]
          exact hmem _ hparent

/-- The plan of an assembled draft is the plan of the join tree of its aggregate tree, and there is
one. -/
theorem plan_of_assemble {root : TableSpec T C} {additions : List (Addition T C)}
    {draft : Draft T C} (h : assemble root additions = .ok draft) :
    draft.plan = (AggregateTree.ofAdditions root additions).joinTree.plan ∧
      ∃ plan, draft.plan = .ok plan := by
  obtain ⟨tree, hholds, htree, -⟩ := assemble_holds h
  have hplan : draft.plan = tree.tree.plan := by
    rw [Draft.plan, hholds.tree?_eq]
  obtain ⟨parts, top, -, hok⟩ := JoinTree.exists_plan hholds.identity
  exact ⟨by rw [hplan, htree], _, hplan.trans hok⟩

/-- No table gets a child before it is added itself. -/
theorem pairwise_of_assemble {root : TableSpec T C} {additions : List (Addition T C)}
    {draft : Draft T C} (h : assemble root additions = .ok draft) :
    additions.Pairwise (fun earlier later => earlier.parent ≠ later.spec.table) ∧
      ∀ addition ∈ additions, addition.parent ≠ addition.spec.table := by
  induction additions using List.reverseRecOn generalizing draft with
  | nil => exact ⟨List.Pairwise.nil, by simp⟩
  | append_singleton additions addition ih =>
      obtain ⟨before, hbefore, hadd⟩ := assemble_append_singleton h
      obtain ⟨tree, hholds, -, hparents⟩ := assemble_holds hbefore
      obtain ⟨hparent, hfresh, -⟩ := hholds.add hadd
      obtain ⟨hpairs, hself⟩ := ih hbefore
      have hne : ∀ t ∈ tree.tree.tables, t ≠ addition.spec.table := fun t ht e =>
        hfresh (e ▸ ht)
      constructor
      · rw [List.pairwise_append]
        refine ⟨hpairs, List.pairwise_singleton _ _, ?_⟩
        intro earlier he later hl
        rw [List.mem_singleton.mp hl]
        exact hne _ (hparents earlier he)
      · intro a ha
        rcases List.mem_append.mp ha with ha | ha
        · exact hself a ha
        · rw [List.mem_singleton.mp ha]
          exact hne _ hparent

end Draft

namespace AggregateBranch

theorem ofAdditions_append_of_forall_ne {table : T} {before : List (Addition T C)}
    (h : ∀ addition ∈ before, addition.parent ≠ table) (after : List (Addition T C)) :
    ofAdditions table (before ++ after) = ofAdditions table after := by
  induction before with
  | nil => rfl
  | cons first rest ih =>
      obtain ⟨parent, multiplicity, spec⟩ := first
      rw [List.cons_append, ofAdditions, if_neg (h _ List.mem_cons_self)]
      exact ih fun a ha => h a (List.mem_cons_of_mem _ ha)

/-- When all additions come parents first, the branches below a table are the additions below it,
each with its own branches. -/
theorem ofAdditions_eq_map {all : List (Addition T C)}
    (hpairs : all.Pairwise fun earlier later => earlier.parent ≠ later.spec.table)
    (hself : ∀ addition ∈ all, addition.parent ≠ addition.spec.table) (table : T) :
    ofAdditions table all = (all.filter (·.parent = table)).map fun addition =>
      ⟨addition.multiplicity, ⟨addition.spec, ofAdditions addition.spec.table all⟩⟩ := by
  -- induction on the additions that are left, those before them kept in the statement
  suffices h : ∀ before after, all = before ++ after →
      ofAdditions table after = (after.filter (·.parent = table)).map fun addition =>
        ⟨addition.multiplicity, ⟨addition.spec, ofAdditions addition.spec.table all⟩⟩ from
    h [] all rfl
  intro before after hall
  induction after generalizing before with
  | nil => rfl
  | cons first rest ih =>
      have hrest := ih (before ++ [first]) (by rw [hall, List.append_assoc]; rfl)
      have hfirst : ofAdditions first.spec.table all = ofAdditions first.spec.table rest := by
        have hsplit : all = (before ++ [first]) ++ rest := by
          rw [hall, List.append_assoc]
          rfl
        conv_lhs => rw [hsplit]
        apply ofAdditions_append_of_forall_ne
        intro a ha
        rcases List.mem_append.mp ha with ha | ha
        · rw [hall, List.pairwise_append] at hpairs
          exact hpairs.2.2 a ha first List.mem_cons_self
        · rw [List.mem_singleton.mp ha]
          exact hself first (by simp [hall])
      obtain ⟨parent, multiplicity, spec⟩ := first
      rw [ofAdditions, hrest]
      by_cases hp : parent = table
      · rw [if_pos hp, List.filter_cons_of_pos (by simpa using hp), List.map_cons, hfirst]
      · rw [if_neg hp, List.filter_cons_of_neg (by simpa using hp)]

theorem ofAdditions_congr {first second : List (Addition T C)}
    (hpairs : first.Pairwise fun earlier later => earlier.parent ≠ later.spec.table)
    (hself : ∀ addition ∈ first, addition.parent ≠ addition.spec.table)
    (hpairs' : second.Pairwise fun earlier later => earlier.parent ≠ later.spec.table)
    (hself' : ∀ addition ∈ second, addition.parent ≠ addition.spec.table)
    (h : ∀ table, first.filter (·.parent = table) = second.filter (·.parent = table)) (table : T) :
    ofAdditions table first = ofAdditions table second := by
  -- induction on the additions in which children of `table` can still be found
  suffices hsuffix : ∀ n, ∀ before after, first = before ++ after → after.length = n →
      ∀ table, (∀ addition ∈ before, addition.parent ≠ table) →
        ofAdditions table first = ofAdditions table second from
    hsuffix _ [] first rfl rfl table (by simp)
  intro n
  induction n using Nat.strongRecOn with
  | ind n ih =>
    intro before after hall hlength table hbefore
    rw [ofAdditions_eq_map hpairs hself, ofAdditions_eq_map hpairs' hself', ← h table]
    apply List.map_congr_left
    intro a ha
    obtain ⟨hmem, hparent⟩ := List.mem_filter.mp ha
    have hafter : a ∈ after := by
      rw [hall, List.mem_append] at hmem
      exact hmem.resolve_left fun hb => hbefore a hb (by simpa using hparent)
    obtain ⟨skipped, rest, rfl⟩ := List.append_of_mem hafter
    have hsplit : first = (before ++ skipped ++ [a]) ++ rest := by
      rw [hall]
      simp
    have hrest : rest.length < n := by
      rw [← hlength, List.length_append, List.length_cons]
      omega
    have hbelow := ih rest.length hrest _ rest hsplit rfl a.spec.table ?_
    · rw [hbelow]
    · intro b hb
      rcases List.mem_append.mp hb with hb | hb
      · rw [hall, ← List.append_assoc, List.pairwise_append] at hpairs
        exact hpairs.2.2 b hb a List.mem_cons_self
      · rw [List.mem_singleton.mp hb]
        exact hself a hmem

end AggregateBranch

/-- An assembled draft has a plan, the one of the join tree that its aggregate tree defines by
recursion. So additions in another order make the same plan when every table has the same children
in the same order. -/
theorem Draft.plan_eq_of_assemble [ToString T] {root : TableSpec T C}
    {additions : List (Addition T C)} {draft : Draft T C}
    (h : assemble root additions = .ok draft) :
    (∃ plan, draft.plan = .ok plan ∧
      (AggregateTree.ofAdditions root additions).joinTree.plan = .ok plan) ∧
    ∀ additions' draft', assemble root additions' = .ok draft' →
      (∀ table, additions'.filter (·.parent = table) = additions.filter (·.parent = table)) →
      draft'.plan = draft.plan := by
  obtain ⟨hplan, plan, hok⟩ := plan_of_assemble h
  refine ⟨⟨plan, hok, hplan ▸ hok⟩, ?_⟩
  intro additions' draft' h' hsiblings
  obtain ⟨hpairs, hself⟩ := pairwise_of_assemble h
  obtain ⟨hpairs', hself'⟩ := pairwise_of_assemble h'
  rw [(plan_of_assemble h').1, hplan, AggregateTree.ofAdditions, AggregateTree.ofAdditions,
    AggregateBranch.ofAdditions_congr hpairs' hself' hpairs hself hsiblings]

/-- A table with two children, the first of which gets a child of its own at once or only at the
end. -/
theorem Draft.plan_eq_of_assemble_late :
    let root : TableSpec Nat Nat := { table := 0, id := some 10 }
    let first : Addition Nat Nat := ⟨0, .multiple, { table := 1, id := some 11 }⟩
    let second : Addition Nat Nat := ⟨0, .single, { table := 2, columns := [12] }⟩
    let below : Addition Nat Nat := ⟨1, .multiple, { table := 3, key := some 13 }⟩
    ∃ draft draft',
      assemble root [first, below, second] = .ok draft ∧
      assemble root [first, second, below] = .ok draft' ∧
      (∃ plan, draft.plan = .ok plan ∧
        (AggregateTree.ofAdditions root [first, below, second]).joinTree.plan = .ok plan) ∧
      draft'.plan = draft.plan := by
  intro root first second below
  obtain ⟨draft, h⟩ : ∃ draft, assemble root [first, below, second] = .ok draft := ⟨_, rfl⟩
  obtain ⟨draft', h'⟩ : ∃ draft, assemble root [first, second, below] = .ok draft := ⟨_, rfl⟩
  obtain ⟨hplan, hsame⟩ := plan_eq_of_assemble h
  refine ⟨draft, draft', h, h', hplan, hsame _ draft' h' fun table => ?_⟩
  by_cases h0 : 0 = table
  · subst h0
    rfl
  · simp [first, second, below, List.filter_cons, h0]

end FlatAggregate
