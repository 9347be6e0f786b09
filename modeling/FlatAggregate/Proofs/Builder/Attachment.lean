import FlatAggregate.JoinTree
import Mathlib.Data.List.Perm.Basic
import Mathlib.Data.List.Nodup

/-!
# Attaching a child to a join tree

`attach` adds a child at the top of the spine of its parent table, wherever that spine stands in
the tree. It is the tree-level meaning of grafting: no index and no positions are needed, the spine
is met from above.

A tree is `Spined` when every join belongs to the table of its parent side. Attaching keeps this,
keeps the left-most table, and adds just the new table.
-/

namespace FlatAggregate.JoinTree

variable {T C : Type}

/-- Every join belongs to the table that its parent side belongs to. -/
def Spined : JoinTree T C → Prop
  | table _ => True
  | join parent child _ owner => parent.owner = owner ∧ parent.Spined ∧ child.Spined

/-- The left-most table of a spined tree is its owner. -/
theorem table_rootSpec {tree : JoinTree T C} (h : tree.Spined) :
    tree.rootSpec.table = tree.owner := by
  induction tree with
  | table spec => rfl
  | join parent child m o ihp _ =>
      rw [rootSpec, ihp h.2.1, h.1]
      rfl

theorem owner_mem_tables {tree : JoinTree T C} (h : tree.Spined) : tree.owner ∈ tree.tables := by
  rw [← table_rootSpec h]
  exact List.mem_map_of_mem (rootSpec_mem_specs tree)

section Attach

variable [DecidableEq T] (parent : T) (multiplicity : Multiplicity) (spec : TableSpec T C)

/-- Attaches `spec` as a child of the table `parent`, above every child that table has already.
A tree without that table stays as it is. -/
def attach (tree : JoinTree T C) : JoinTree T C :=
  if tree.owner = parent then
    .join tree (.table spec) multiplicity parent
  else
    match tree with
    | table leaf => table leaf
    | join left right m owner => join left.attach right.attach m owner

variable {parent}

theorem attach_of_owner {tree : JoinTree T C} (h : tree.owner = parent) :
    tree.attach parent multiplicity spec = .join tree (.table spec) multiplicity parent := by
  rw [attach.eq_def, if_pos h]

theorem attach_table_of_ne {leaf : TableSpec T C} (h : leaf.table ≠ parent) :
    (table leaf).attach parent multiplicity spec = table leaf := by
  rw [attach.eq_def, if_neg (show ¬(table leaf).owner = parent from h)]

theorem attach_join_of_ne {left right : JoinTree T C} {m : Multiplicity} {owner : T}
    (h : owner ≠ parent) :
    (join left right m owner).attach parent multiplicity spec =
      join (left.attach parent multiplicity spec) (right.attach parent multiplicity spec)
        m owner := by
  rw [attach.eq_def, if_neg (show ¬(join left right m owner).owner = parent from h)]

theorem attach_of_not_mem {tree : JoinTree T C} (hs : tree.Spined) (h : parent ∉ tree.tables) :
    tree.attach parent multiplicity spec = tree := by
  induction tree with
  | table leaf =>
      apply attach_table_of_ne
      rintro rfl
      simp at h
  | join left right m o ihl ihr =>
      rw [tables_join, List.mem_append, not_or] at h
      have ho : o ≠ parent := by
        rintro rfl
        exact h.1 (hs.1 ▸ owner_mem_tables hs.2.1)
      rw [attach_join_of_ne _ _ ho, ihl hs.2.1 h.1, ihr hs.2.2 h.2]

@[simp] theorem owner_attach (tree : JoinTree T C) :
    (tree.attach parent multiplicity spec).owner = tree.owner := by
  by_cases h : tree.owner = parent
  · rw [attach_of_owner _ _ h]
    exact h.symm
  · cases tree with
    | table leaf => rw [attach_table_of_ne _ _ h]
    | join left right m o =>
        have ho : o ≠ parent := h
        rw [attach_join_of_ne _ _ ho]
        rfl

@[simp] theorem rootSpec_attach (tree : JoinTree T C) :
    (tree.attach parent multiplicity spec).rootSpec = tree.rootSpec := by
  induction tree with
  | table leaf =>
      rw [attach.eq_def]
      split <;> rfl
  | join left right m o ihl _ =>
      by_cases h : o = parent
      · have howner : (join left right m o).owner = parent := h
        rw [attach_of_owner _ _ howner]
        rfl
      · rw [attach_join_of_ne _ _ h, rootSpec, ihl, rootSpec]

theorem spined_attach {tree : JoinTree T C} (h : tree.Spined) :
    (tree.attach parent multiplicity spec).Spined := by
  by_cases ho : tree.owner = parent
  · rw [attach_of_owner _ _ ho]
    exact ⟨ho, h, trivial⟩
  · induction tree with
    | table leaf => rwa [attach_table_of_ne _ _ ho]
    | join left right m o ihl ihr =>
        have hl : left.owner = o := h.1
        have hop : o ≠ parent := ho
        have hol : left.owner ≠ parent := hl ▸ hop
        rw [attach_join_of_ne _ _ hop]
        refine ⟨by rw [owner_attach, hl], ihl h.2.1 hol, ?_⟩
        by_cases hr : right.owner = parent
        · rw [attach_of_owner _ _ hr]
          exact ⟨hr, h.2.2, trivial⟩
        · exact ihr h.2.2 hr

/-- Attaching below a table of the tree adds the new table and nothing else. -/
theorem specs_attach_perm {tree : JoinTree T C} (hs : tree.Spined) (hn : tree.tables.Nodup)
    (hp : parent ∈ tree.tables) :
    (tree.attach parent multiplicity spec).specs.Perm (spec :: tree.specs) := by
  by_cases ho : tree.owner = parent
  · rw [attach_of_owner _ _ ho]
    exact List.perm_append_singleton spec tree.specs
  · induction tree with
    | table leaf => exact absurd (List.mem_singleton.mp hp).symm ho
    | join left right m o ihl ihr =>
        rw [tables_join] at hn hp
        have hop : o ≠ parent := ho
        have hol : left.owner ≠ parent := hs.1 ▸ hop
        rw [attach_join_of_ne _ _ hop]
        rcases List.mem_append.mp hp with hl | hr
        · have hnr : parent ∉ right.tables := fun hr => List.disjoint_of_nodup_append hn hl hr
          rw [attach_of_not_mem _ _ hs.2.2 hnr]
          exact (ihl hs.2.1 hn.of_append_left hl hol).append_right right.specs
        · have hnl : parent ∉ left.tables := fun hl => List.disjoint_of_nodup_append hn hl hr
          have hright : (right.attach parent multiplicity spec).specs.Perm
              (spec :: right.specs) := by
            by_cases hor : right.owner = parent
            · rw [attach_of_owner _ _ hor]
              exact List.perm_append_singleton spec right.specs
            · exact ihr hs.2.2 hn.of_append_right hr hor
          rw [attach_of_not_mem _ _ hs.2.1 hnl]
          exact (hright.append_left left.specs).trans List.perm_middle

end Attach

end FlatAggregate.JoinTree
