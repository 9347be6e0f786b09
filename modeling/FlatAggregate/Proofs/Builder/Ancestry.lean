import FlatAggregate.Proofs.Plan.Assembled
import Mathlib.Logic.Function.Basic

/-!
# What tables inherit

`Addition.inherit` gives every table a value made from its specification and from the value of the
table it is added below. Such a value depends on the ancestors of the table alone: further additions
leave it as it is (`Addition.inherit_append`). The effective identity of a table is of this kind,
and so are the texts of what identifies it.

The join tree of an aggregate joins a child to the table it is added below
(`AggregateTree.exists_addition`).
-/

namespace FlatAggregate

variable {T C B : Type}

/-- The columns that identify a row of a table: its declared id, or else what identifies the row
above and the key. -/
def TableSpec.effectiveId (spec : TableSpec T C) (above : List C) : List C :=
  match spec.id with
  | some id => [id]
  | none => above ++ spec.key.toList

theorem JoinTree.Spined.of_mem_parts {tree part : JoinTree T C} (hs : tree.Spined)
    (h : part ∈ tree.parts) : part.Spined := by
  induction tree with
  | table spec =>
      rw [List.mem_singleton.mp h]
      trivial
  | join parent child m o ihp ihc =>
      rw [parts, List.mem_cons, List.mem_append] at h
      rcases h with rfl | h | h
      · exact hs
      · exact ihp hs.2.1 h
      · exact ihc hs.2.2 h

section Joins

theorem AggregateBranch.rootSpec_joinAll (owner : T) (soFar : JoinTree T C)
    (branches : List (AggregateBranch T C)) :
    (joinAll owner soFar branches).rootSpec = soFar.rootSpec := by
  induction branches generalizing soFar with
  | nil => rw [joinAll]
  | cons branch rest ih =>
      rw [joinAll_cons, ih]
      rfl

theorem AggregateTree.rootSpec_joinTree (tree : AggregateTree T C) :
    tree.joinTree.rootSpec = tree.spec := by
  obtain ⟨spec, branches⟩ := tree
  rw [joinTree, AggregateBranch.rootSpec_joinAll]
  rfl

variable [DecidableEq T]

/-- Every join of an aggregate is there for the table on its child side, which is added below the
owner of the join. -/
theorem AggregateBranch.exists_addition {table owner : T} {soFar left right : JoinTree T C}
    {additions : List (Addition T C)} {multiplicity : Multiplicity}
    (h : .join left right multiplicity owner ∈
      (joinAll table soFar (ofAdditions table additions)).parts) :
    .join left right multiplicity owner ∈ soFar.parts ∨
      ∃ addition ∈ additions, addition.parent = owner ∧ addition.spec = right.rootSpec := by
  induction additions generalizing table soFar with
  | nil => exact .inl h
  | cons first rest ih =>
      have hrest : (∃ addition ∈ rest, addition.parent = owner ∧ addition.spec = right.rootSpec) →
          ∃ addition ∈ first :: rest, addition.parent = owner ∧ addition.spec = right.rootSpec :=
        fun ⟨addition, ha, hrest⟩ => ⟨addition, List.mem_cons_of_mem _ ha, hrest⟩
      obtain ⟨parent, m, spec⟩ := first
      rw [ofAdditions] at h
      split at h
      · rename_i hparent
        rw [joinAll] at h
        rcases ih h with hpart | hpart
        · rw [JoinTree.parts, List.mem_cons, List.mem_append] at hpart
          rcases hpart with heq | hpart | hpart
          · obtain ⟨-, rfl, -, rfl⟩ := JoinTree.join.inj heq
            refine .inr ⟨_, List.mem_cons_self, hparent, ?_⟩
            rw [AggregateTree.rootSpec_joinTree]
          · exact .inl hpart
          · rw [AggregateTree.joinTree] at hpart
            rcases ih hpart with hpart | hpart
            · simp [JoinTree.parts] at hpart
            · exact .inr (hrest hpart)
        · exact .inr (hrest hpart)
      · exact (ih h).imp_right hrest

theorem AggregateTree.exists_addition {root : TableSpec T C} {additions : List (Addition T C)}
    {left right : JoinTree T C} {multiplicity : Multiplicity} {owner : T}
    (h : .join left right multiplicity owner ∈ (ofAdditions root additions).joinTree.parts) :
    ∃ addition ∈ additions, addition.parent = owner ∧ addition.spec = right.rootSpec := by
  rw [ofAdditions, joinTree] at h
  exact (AggregateBranch.exists_addition h).resolve_left (by simp [JoinTree.parts])

end Joins

section Inheritance

variable [DecidableEq T]

/-- The value that every table has from its own specification and from the value above it. Nothing
stands above the root. -/
def Addition.inherit (make : TableSpec T C → B → B) (nothing : B) (root : TableSpec T C)
    (additions : List (Addition T C)) : T → B :=
  additions.foldl
    (fun values addition => Function.update values addition.spec.table
      (make addition.spec (values addition.parent)))
    (Function.update (fun _ => nothing) root.table (make root nothing))

variable {make : TableSpec T C → B → B} {nothing : B} {root : TableSpec T C}
  {additions : List (Addition T C)}

theorem Addition.inherit_append_singleton (addition : Addition T C) :
    inherit make nothing root (additions ++ [addition]) =
      Function.update (inherit make nothing root additions) addition.spec.table
        (make addition.spec (inherit make nothing root additions addition.parent)) := by
  rw [inherit, List.foldl_append]
  rfl

/-- Further tables do not change what the tables that are there inherit. -/
theorem Addition.inherit_append {more : List (Addition T C)}
    (hn : ((root :: (additions ++ more).map Addition.spec).map TableSpec.table).Nodup) {t : T}
    (ht : t ∈ (root :: additions.map Addition.spec).map TableSpec.table) :
    inherit make nothing root (additions ++ more) t = inherit make nothing root additions t := by
  induction more using List.reverseRecOn with
  | nil => rw [List.append_nil]
  | append_singleton more addition ih =>
      rw [← List.append_assoc, List.map_append, ← List.cons_append, List.map_append,
        List.nodup_append] at hn
      rw [← List.append_assoc, inherit_append_singleton, Function.update_of_ne, ih hn.1]
      refine hn.2.2 t ?_ _ (by simp)
      rw [List.map_append, ← List.cons_append, List.map_append]
      exact List.mem_append_left _ ht

theorem Addition.inherit_root
    (hn : ((root :: additions.map Addition.spec).map TableSpec.table).Nodup) :
    inherit make nothing root additions root.table = make root nothing := by
  have hroot : inherit make nothing root ([] ++ additions) root.table =
      inherit make nothing root [] root.table := inherit_append hn (by simp)
  rw [List.nil_append] at hroot
  rw [hroot, inherit, List.foldl_nil, Function.update_self]

end Inheritance

namespace Draft

variable [DecidableEq T] [ToString T] {root : TableSpec T C} {additions : List (Addition T C)}
  {draft : Draft T C}

theorem nodup_tables_of_assemble (h : assemble root additions = .ok draft) :
    ((root :: additions.map Addition.spec).map TableSpec.table).Nodup := by
  obtain ⟨tree, hholds, htree, -⟩ := assemble_holds h
  refine ((specs_of_assemble h).map TableSpec.table).nodup_iff.mp ?_
  rw [← htree]
  exact hholds.tables_nodup

theorem parent_mem_of_assemble (h : assemble root additions = .ok draft) :
    ∀ addition ∈ additions,
      addition.parent ∈ (root :: additions.map Addition.spec).map TableSpec.table := by
  obtain ⟨tree, hholds, htree, hparents⟩ := assemble_holds h
  intro addition ha
  refine ((specs_of_assemble h).map TableSpec.table).mem_iff.mp ?_
  rw [← htree]
  exact hparents addition ha

theorem inherit_of_assemble (make : TableSpec T C → B → B) (nothing : B)
    (h : assemble root additions = .ok draft) :
    ∀ addition ∈ additions, Addition.inherit make nothing root additions addition.spec.table =
      make addition.spec (Addition.inherit make nothing root additions addition.parent) := by
  induction additions using List.reverseRecOn generalizing draft with
  | nil => simp
  | append_singleton additions last ih =>
      obtain ⟨before, hbefore, -⟩ := assemble_append_singleton h
      obtain ⟨hpairs, hself⟩ := pairwise_of_assemble h
      have hn := nodup_tables_of_assemble h
      rw [List.pairwise_append] at hpairs
      intro addition ha
      have hparent : addition.parent ≠ last.spec.table := by
        rcases List.mem_append.mp ha with hmem | hmem
        · exact hpairs.2.2 addition hmem last (List.mem_singleton_self last)
        · rw [List.mem_singleton.mp hmem]
          exact hself last (by simp)
      rw [Addition.inherit_append_singleton, Function.update_of_ne hparent]
      rcases List.mem_append.mp ha with hmem | hmem
      · have hne : addition.spec.table ≠ last.spec.table := by
          rw [List.map_append, ← List.cons_append, List.map_append, List.nodup_append] at hn
          refine hn.2.2 _ ?_ _ (by simp)
          exact List.mem_map_of_mem (List.mem_cons_of_mem _ (List.mem_map_of_mem hmem))
        rw [Function.update_of_ne hne]
        exact ih hbefore addition hmem
      · rw [List.mem_singleton.mp hmem, Function.update_self]

end Draft

end FlatAggregate
