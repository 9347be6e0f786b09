import FlatAggregate.Proofs.Builder.Attachment

/-!
# The shape of a join tree

Three conditions on the tables of a join tree: that every table with children declares an id, that
no table has two children, and that only the left-most table has children. They pass to the parts of
a tree.

Each is a recursion on the tree and speaks of tables only by way of their joins: a table with two
children is a parent side that is a join, a table below the left-most one with children is a child
side that is a join (`unbranched_iff`, `flat_iff`).
-/

namespace FlatAggregate.JoinTree

variable {T C : Type}

def parts : JoinTree T C → List (JoinTree T C)
  | table spec => [table spec]
  | join parent child multiplicity owner =>
    join parent child multiplicity owner :: (parent.parts ++ child.parts)

/-- Every table with children, that is, the left-most table of every parent side, declares an id. -/
def ParentsDeclareIds : JoinTree T C → Prop
  | table _ => True
  | join parent child _ _ =>
    parent.rootSpec.id.isSome ∧ parent.ParentsDeclareIds ∧ child.ParentsDeclareIds

/-- No table has two children: every parent side is a single table. -/
def Unbranched : JoinTree T C → Prop
  | table _ => True
  | join (table _) child _ _ => child.Unbranched
  | join (join ..) _ _ _ => False

/-- Only the left-most table has children: every child side is a single table. -/
def Flat : JoinTree T C → Prop
  | table _ => True
  | join parent (table _) _ _ => parent.Flat
  | join _ (join ..) _ _ => False

theorem sublist_of_mem_parts {tree part : JoinTree T C} (h : part ∈ tree.parts) :
    part.tables.Sublist tree.tables := by
  induction tree with
  | table spec =>
      rw [List.mem_singleton.mp h]
  | join parent child m o ihp ihc =>
      rw [parts, List.mem_cons, List.mem_append] at h
      rw [tables_join]
      rcases h with rfl | h | h
      · rw [tables_join]
      · exact (ihp h).trans (List.sublist_append_left _ _)
      · exact (ihc h).trans (List.sublist_append_right _ _)

theorem ParentsDeclareIds.of_mem_parts {tree part : JoinTree T C} (hids : tree.ParentsDeclareIds)
    (h : part ∈ tree.parts) : part.ParentsDeclareIds := by
  induction tree with
  | table spec =>
      rw [List.mem_singleton.mp h]
      trivial
  | join parent child m o ihp ihc =>
      rw [parts, List.mem_cons, List.mem_append] at h
      rcases h with rfl | h | h
      · exact hids
      · exact ihp hids.2.1 h
      · exact ihc hids.2.2 h

theorem Flat.of_mem_parts {tree part : JoinTree T C} (hflat : tree.Flat) (h : part ∈ tree.parts) :
    part.Flat := by
  induction tree with
  | table spec =>
      rw [List.mem_singleton.mp h]
      trivial
  | join left right m o ihl ihr =>
      rw [parts, List.mem_cons, List.mem_append] at h
      rcases h with rfl | h | h
      · exact hflat
      · cases right with
        | table spec => exact ihl hflat h
        | join => exact hflat.elim
      · cases right with
        | table spec => exact ihr trivial h
        | join => exact hflat.elim

section Children

variable [DecidableEq T]

/-- The number of children of a table: every join attaches one to its owner. -/
def childrenOf (t : T) : JoinTree T C → Nat
  | table _ => 0
  | join parent child _ owner =>
    parent.childrenOf t + child.childrenOf t + if owner = t then 1 else 0

theorem childrenOf_of_not_mem {tree : JoinTree T C} (hs : tree.Spined) {t : T}
    (h : t ∉ tree.tables) : tree.childrenOf t = 0 := by
  induction tree with
  | table spec => rfl
  | join parent child m o ihp ihc =>
      rw [tables_join, List.mem_append, not_or] at h
      have ho : o ≠ t := by
        rintro rfl
        exact h.1 (hs.1 ▸ owner_mem_tables hs.2.1)
      rw [childrenOf, ihp hs.2.1 h.1, ihc hs.2.2 h.2, if_neg ho]

/-- Attaching a child to a table of the tree gives that table one more child. -/
theorem childrenOf_attach {tree : JoinTree T C} (hs : tree.Spined) (hn : tree.tables.Nodup)
    {parent : T} (hp : parent ∈ tree.tables) (multiplicity : Multiplicity)
    (spec : TableSpec T C) (t : T) :
    (tree.attach parent multiplicity spec).childrenOf t =
      tree.childrenOf t + if parent = t then 1 else 0 := by
  by_cases ho : tree.owner = parent
  · rw [attach_of_owner _ _ ho, childrenOf, childrenOf, Nat.add_zero]
  · induction tree with
    | table leaf => exact absurd (List.mem_singleton.mp hp).symm ho
    | join left right m o ihl ihr =>
        rw [tables_join] at hn hp
        have hop : o ≠ parent := ho
        have hol : left.owner ≠ parent := hs.1 ▸ hop
        rw [attach_join_of_ne _ _ hop, childrenOf, childrenOf]
        rcases List.mem_append.mp hp with hl | hr
        · have hnr : parent ∉ right.tables := fun hr => List.disjoint_of_nodup_append hn hl hr
          rw [attach_of_not_mem _ _ hs.2.2 hnr, ihl hs.2.1 hn.of_append_left hl hol]
          omega
        · have hnl : parent ∉ left.tables := fun hl => List.disjoint_of_nodup_append hn hl hr
          have hright : (right.attach parent multiplicity spec).childrenOf t =
              right.childrenOf t + if parent = t then 1 else 0 := by
            by_cases hor : right.owner = parent
            · rw [attach_of_owner _ _ hor, childrenOf, childrenOf, Nat.add_zero]
            · exact ihr hs.2.2 hn.of_append_right hr hor
          rw [attach_of_not_mem _ _ hs.2.1 hnl, hright]
          omega

/-- In a tree whose joins stand above the tables that own them, unbranched means that no table has
two children. -/
theorem unbranched_iff {tree : JoinTree T C} (hs : tree.Spined) (hn : tree.tables.Nodup) :
    tree.Unbranched ↔ ∀ t, tree.childrenOf t ≤ 1 := by
  induction tree with
  | table spec => simp [Unbranched, childrenOf]
  | join left right m o ihl ihr =>
      rw [tables_join] at hn
      cases left with
      | table spec =>
          have howner : spec.table = o := hs.1
          rw [Unbranched, ihr hs.2.2 hn.of_append_right]
          constructor
          · intro h t
            rw [childrenOf, childrenOf, Nat.zero_add]
            by_cases ht : o = t
            · subst t
              have hnot : o ∉ right.tables := fun hr =>
                List.disjoint_of_nodup_append hn (by simp [howner]) hr
              simp [childrenOf_of_not_mem hs.2.2 hnot]
            · rw [if_neg ht]
              exact h t
          · intro h t
            have ht := h t
            rw [childrenOf] at ht
            omega
      | join left' right' m' o' =>
          have howner : o' = o := hs.1
          refine iff_of_false id fun h => ?_
          have ho := h o
          rw [childrenOf, childrenOf, if_pos rfl, if_pos howner] at ho
          omega

/-- In a tree whose joins stand above the tables that own them, flat means that no table but the
left-most one has children. -/
theorem flat_iff {tree : JoinTree T C} (hs : tree.Spined) (hn : tree.tables.Nodup) :
    tree.Flat ↔ ∀ t, t ≠ tree.owner → tree.childrenOf t = 0 := by
  induction tree with
  | table spec => simp [Flat, childrenOf]
  | join left right m o ihl ihr =>
      rw [tables_join] at hn
      have howner : left.owner = o := hs.1
      cases right with
      | table spec =>
          rw [Flat, ihl hs.2.1 hn.of_append_left, howner, owner]
          refine forall₂_congr fun t ht => ?_
          rw [childrenOf, childrenOf, if_neg ht.symm, Nat.add_zero]
      | join left' right' m' o' =>
          refine iff_of_false id fun h => ?_
          have hleft : o ∈ left.tables := howner ▸ owner_mem_tables hs.2.1
          have hright : o' ∈ (join left' right' m' o').tables := owner_mem_tables hs.2.2
          have ho := h o' fun heq => List.disjoint_of_nodup_append hn hleft (heq ▸ hright)
          rw [childrenOf, childrenOf, if_pos rfl] at ho
          omega

end Children

end FlatAggregate.JoinTree
