import FlatAggregate.Proofs.Builder.Ancestry

/-!
# Accepted additions

A sequence of additions is accepted just when every table is added once and below a table that is
there by then, and a root without id and key has no children (`Draft.exists_assemble_iff`).

Whether a sequence is accepted can so be told without a draft, from the tables alone. The entities
of a schema are checked to make up such a sequence.
-/

namespace FlatAggregate

variable {T C : Type}

/-- Every addition is of a new table below one that is there, when the tables `present` are there
at first. -/
def Addition.Attachable (present : List T) : List (Addition T C) → Prop
  | [] => True
  | addition :: rest => addition.parent ∈ present ∧ addition.spec.table ∉ present ∧
    Attachable (present ++ [addition.spec.table]) rest

namespace Addition

@[simp] theorem attachable_nil (present : List T) :
    Attachable present ([] : List (Addition T C)) := trivial

theorem attachable_cons (present : List T) (addition : Addition T C)
    (rest : List (Addition T C)) :
    Attachable present (addition :: rest) ↔ addition.parent ∈ present ∧
      addition.spec.table ∉ present ∧ Attachable (present ++ [addition.spec.table]) rest := .rfl

theorem attachable_append (present : List T) (first second : List (Addition T C)) :
    Attachable present (first ++ second) ↔ Attachable present first ∧
      Attachable (present ++ first.map (·.spec.table)) second := by
  induction first generalizing present with
  | nil => simp
  | cons addition rest ih =>
      rw [List.cons_append, attachable_cons, attachable_cons, ih, List.map_cons,
        List.append_assoc, List.singleton_append]
      tauto

/-- Tables that are attached are new. -/
theorem Attachable.nodup {present : List T} {additions : List (Addition T C)}
    (h : Attachable present additions) (hpresent : present.Nodup) :
    (present ++ additions.map (·.spec.table)).Nodup := by
  induction additions generalizing present with
  | nil => simpa using hpresent
  | cons addition rest ih =>
      obtain ⟨-, hnew, hrest⟩ := h
      rw [List.map_cons, ← List.singleton_append, ← List.append_assoc]
      exact ih hrest (List.concat_eq_append ▸ hpresent.concat hnew)

end Addition

namespace Draft

variable [DecidableEq T] [ToString T] {root : TableSpec T C} {additions : List (Addition T C)}

theorem Holds.exists_add_iff {draft : Draft T C} {tree : NodeTree T C} (h : draft.Holds tree)
    (addition : Addition T C) :
    (∃ draft', draft.add addition = .ok draft') ↔ addition.parent ∈ tree.tree.tables ∧
      addition.spec.table ∉ tree.tree.tables ∧
      (addition.parent = tree.tree.owner → tree.tree.rootSpec.hasIdentity) := by
  rw [Draft.add, h.addChild_eq]
  split_ifs with hparent htable hidentity <;> simp_all

/-- Additions are accepted if and only if every table is new and below one that is there, and the
rows of a root with children can be told apart. -/
theorem exists_assemble_iff :
    (∃ draft, assemble root additions = .ok draft) ↔
      Addition.Attachable [root.table] additions ∧
        ∀ addition ∈ additions, addition.parent = root.table → root.hasIdentity := by
  induction additions using List.reverseRecOn with
  | nil =>
      obtain ⟨start, hstart, -⟩ := empty_addRoot root
      simp [assemble, hstart, bind, Except.bind, pure, Except.pure]
  | append_singleton additions addition ih =>
      -- what the next addition is asked for is read off the tree of the additions so far
      have hstep : ∀ before, assemble root additions = .ok before →
          ((∃ draft, before.add addition = .ok draft) ↔
            addition.parent ∈ [root.table] ++ additions.map (·.spec.table) ∧
            addition.spec.table ∉ [root.table] ++ additions.map (·.spec.table) ∧
            (addition.parent = root.table → root.hasIdentity)) := by
        intro before hbefore
        obtain ⟨tree, hholds, htree, -⟩ := assemble_holds hbefore
        have hroot : tree.tree.rootSpec = root := by
          rw [htree, AggregateTree.rootSpec_joinTree]
          rfl
        have hmem : ∀ t, t ∈ tree.tree.tables ↔
            t ∈ [root.table] ++ additions.map (·.spec.table) := fun t => by
          rw [htree, JoinTree.tables, ((specs_of_assemble hbefore).map TableSpec.table).mem_iff,
            List.map_cons, List.map_map]
          rfl
        rw [hholds.exists_add_iff, ← JoinTree.table_rootSpec hholds.spined, hroot, hmem, hmem]
      rw [Addition.attachable_append, Addition.attachable_cons, List.forall_mem_append,
        List.forall_mem_singleton]
      constructor
      · rintro ⟨draft, h⟩
        obtain ⟨before, hbefore, hadd⟩ := assemble_append_singleton h
        obtain ⟨hattachable, hidentity⟩ := ih.mp ⟨before, hbefore⟩
        obtain ⟨hparent, hnew, hroot⟩ := (hstep before hbefore).mp ⟨draft, hadd⟩
        exact ⟨⟨hattachable, hparent, hnew, trivial⟩, hidentity, hroot⟩
      · rintro ⟨⟨hattachable, hparent, hnew, -⟩, hidentity, hroot⟩
        obtain ⟨before, hbefore⟩ := ih.mpr ⟨hattachable, hidentity⟩
        obtain ⟨draft, hadd⟩ := (hstep before hbefore).mpr ⟨hparent, hnew, hroot⟩
        refine ⟨draft, ?_⟩
        rw [assemble_append_singleton_eq, hbefore]
        exact hadd

end Draft

end FlatAggregate
