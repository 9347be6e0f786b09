import FlatAggregate.Proofs.Builder.Assembly
import FlatAggregate.Proofs.Plan.Selects

/-!
# The plans of assembled drafts

The plan of an assembled draft has the join tree of its aggregate tree laid out in it. What the
additions say about the tables, the shape of this tree says about the plan.

So statements on laid out trees become statements on drafts: what the tables are, which of them
declare an id, and how many children each of them has.
-/

namespace FlatAggregate

variable {T C : Type} [DecidableEq T]

def Addition.ParentsDeclareIds (root : TableSpec T C) (additions : List (Addition T C)) : Prop :=
  ∀ addition ∈ additions, ∀ spec ∈ root :: additions.map Addition.spec,
    spec.table = addition.parent → spec.id.isSome

section Shape

theorem AggregateBranch.parentsDeclareIds_joinAll {table : T} {soFar : JoinTree T C}
    {additions : List (Addition T C)}
    (h : ∀ addition ∈ additions, ∀ below ∈ additions, addition.spec.table = below.parent →
      addition.spec.id.isSome)
    (htable : ∀ addition ∈ additions, table = addition.parent → soFar.rootSpec.id.isSome)
    (hsoFar : soFar.ParentsDeclareIds) :
    (joinAll table soFar (ofAdditions table additions)).ParentsDeclareIds := by
  induction additions generalizing table soFar with
  | nil => exact hsoFar
  | cons first rest ih =>
      obtain ⟨parent, multiplicity, spec⟩ := first
      have hrest : ∀ addition ∈ rest, ∀ below ∈ rest, addition.spec.table = below.parent →
          addition.spec.id.isSome := fun addition ha below hb =>
        h addition (List.mem_cons_of_mem _ ha) below (List.mem_cons_of_mem _ hb)
      rw [ofAdditions]
      split
      · rename_i heq
        rw [joinAll, AggregateTree.joinTree]
        refine ih hrest (fun addition ha ht => htable addition (List.mem_cons_of_mem _ ha) ht) ?_
        refine ⟨htable _ List.mem_cons_self heq.symm, hsoFar, ih hrest ?_ trivial⟩
        exact fun addition ha ht =>
          h _ List.mem_cons_self addition (List.mem_cons_of_mem _ ha) ht
      · exact ih hrest (fun addition ha ht => htable addition (List.mem_cons_of_mem _ ha) ht)
          hsoFar

theorem AggregateTree.parentsDeclareIds {root : TableSpec T C} {additions : List (Addition T C)}
    (h : Addition.ParentsDeclareIds root additions) :
    (ofAdditions root additions).joinTree.ParentsDeclareIds := by
  rw [ofAdditions, joinTree]
  refine AggregateBranch.parentsDeclareIds_joinAll ?_ ?_ trivial
  · exact fun addition ha below hb ht => h below hb addition.spec
      (List.mem_cons_of_mem _ (List.mem_map_of_mem ha)) ht
  · exact fun addition ha ht => h addition ha root List.mem_cons_self ht

end Shape

namespace Draft

variable [ToString T]

theorem childrenOf_of_assemble {root : TableSpec T C} {additions : List (Addition T C)}
    {draft : Draft T C} (h : assemble root additions = .ok draft) (t : T) :
    (AggregateTree.ofAdditions root additions).joinTree.childrenOf t =
      (additions.filter (·.parent = t)).length := by
  induction additions using List.reverseRecOn generalizing draft with
  | nil => rfl
  | append_singleton additions addition ih =>
      obtain ⟨before, hbefore, hadd⟩ := assemble_append_singleton h
      obtain ⟨tree, hholds, htree, -⟩ := assemble_holds hbefore
      obtain ⟨hparent, -, -⟩ := hholds.add hadd
      have hn := hholds.tables_nodup
      have hs := hholds.spined
      rw [htree] at hn hs hparent
      rw [AggregateTree.ofAdditions_append_singleton, AggregateTree.joinTree_insert _ _ hn,
        JoinTree.childrenOf_attach hs hn hparent, ih hbefore, List.filter_append,
        List.length_append, List.filter_singleton]
      by_cases heq : addition.parent = t <;> simp [heq]

theorem specs_of_assemble {root : TableSpec T C} {additions : List (Addition T C)}
    {draft : Draft T C} (h : assemble root additions = .ok draft) :
    (AggregateTree.ofAdditions root additions).joinTree.specs.Perm
      (root :: additions.map Addition.spec) := by
  induction additions using List.reverseRecOn generalizing draft with
  | nil => exact .refl _
  | append_singleton additions addition ih =>
      obtain ⟨before, hbefore, hadd⟩ := assemble_append_singleton h
      obtain ⟨tree, hholds, htree, -⟩ := assemble_holds hbefore
      obtain ⟨hparent, -, -⟩ := hholds.add hadd
      have hn := hholds.tables_nodup
      have hs := hholds.spined
      rw [htree] at hn hs hparent
      rw [AggregateTree.ofAdditions_append_singleton, AggregateTree.joinTree_insert _ _ hn]
      refine (JoinTree.specs_attach_perm _ _ hs hn hparent).trans ?_
      rw [List.map_append, ← List.cons_append]
      exact ((ih hbefore).cons _).trans (List.perm_append_singleton _ _).symm

theorem builds_of_assemble {root : TableSpec T C} {additions : List (Addition T C)}
    {draft : Draft T C} {plan : Plan T C} (h : assemble root additions = .ok draft)
    (hplan : draft.plan = .ok plan) :
    ∃ top, Builds .parent {} (AggregateTree.ofAdditions root additions).joinTree [] plan.parts top ∧
      plan.root = top.select := by
  obtain ⟨tree, hholds, htree, -⟩ := assemble_holds h
  have hidentity := hholds.identity
  rw [htree] at hidentity
  obtain ⟨parts, top, hbuilds, hok⟩ := JoinTree.exists_plan hidentity
  obtain rfl : (⟨parts.selects, parts.columns, top.select⟩ : Plan T C) = plan :=
    Except.ok.inj (hok.symm.trans ((plan_of_assemble h).1.symm.trans hplan))
  exact ⟨top, hbuilds, rfl⟩

/-- In an assembled plan the join tree of the aggregate tree is laid out from beginning to end. -/
theorem laid_of_assemble {root : TableSpec T C} {additions : List (Addition T C)}
    {draft : Draft T C} {plan : Plan T C} (h : assemble root additions = .ok draft)
    (hplan : draft.plan = .ok plan) :
    ∃ top, plan.Laid .parent (AggregateTree.ofAdditions root additions).joinTree [] ⟨0, 0⟩
        plan.parts.mark top ∧ plan.root = top.select ∧
      (AggregateTree.ofAdditions root additions).joinTree.tables.Nodup ∧
      (AggregateTree.ofAdditions root additions).joinTree.Spined := by
  obtain ⟨tree, hholds, htree, -⟩ := assemble_holds h
  have hn := hholds.tables_nodup
  have hs := hholds.spined
  rw [htree] at hn hs
  obtain ⟨top, hbuilds, hroot⟩ := builds_of_assemble h hplan
  exact ⟨top, hbuilds.laid (.refl _), hroot, hn, hs⟩

end Draft

end FlatAggregate
