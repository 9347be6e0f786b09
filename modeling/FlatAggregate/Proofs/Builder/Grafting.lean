import FlatAggregate.Proofs.Builder.NodeTree

/-!
# Grafting attaches

A draft that holds a tree holds, after a graft, the tree with the new table attached. The graft
changes one operand of one join, wherever that join stands; `Grafted` says what is changed and that
nothing else is.

`Draft.Holds` is the invariant of a draft with a root. It turns the calls of the builder into
operations on join trees: `addChild_eq` reads the checks off the tree, `Holds.graft` says that the
accepted call attaches.
-/

namespace FlatAggregate

variable {T C : Type} [DecidableEq T]

namespace NodeTree

/-- The tree with `spec` attached below the table `parent`, the new table at the node `child` and
the new join at the node `join`. -/
def attach (parent : T) (multiplicity : Multiplicity) (spec : TableSpec T C)
    (child join : NodeId) (tree : NodeTree T C) : NodeTree T C :=
  if tree.tree.owner = parent then
    .join join tree (.table child spec) multiplicity parent
  else
    match tree with
    | .table node leaf => .table node leaf
    | .join node left right m owner =>
      .join node (left.attach parent multiplicity spec child join)
        (right.attach parent multiplicity spec child join) m owner

section Attach

variable {parent : T} {multiplicity : Multiplicity} {spec : TableSpec T C} {child join : NodeId}

theorem attach_of_owner {tree : NodeTree T C} (h : tree.tree.owner = parent) :
    tree.attach parent multiplicity spec child join =
      .join join tree (.table child spec) multiplicity parent := by
  rw [attach.eq_def, if_pos h]

theorem attach_table_of_ne {node : NodeId} {leaf : TableSpec T C} (h : leaf.table ≠ parent) :
    (table node leaf).attach parent multiplicity spec child join = table node leaf := by
  rw [attach.eq_def, if_neg (show ¬(table node leaf).tree.owner = parent from h)]

theorem attach_join_of_ne {node : NodeId} {left right : NodeTree T C} {m : Multiplicity}
    {owner : T} (h : owner ≠ parent) :
    (NodeTree.join node left right m owner).attach parent multiplicity spec child join =
      .join node (left.attach parent multiplicity spec child join)
        (right.attach parent multiplicity spec child join) m owner := by
  rw [attach.eq_def, if_neg (show ¬(NodeTree.join node left right m owner).tree.owner = parent
    from h)]

theorem tree_attach (tree : NodeTree T C) :
    (tree.attach parent multiplicity spec child join).tree =
      tree.tree.attach parent multiplicity spec := by
  by_cases ho : tree.tree.owner = parent
  · rw [attach_of_owner ho, JoinTree.attach_of_owner _ _ ho]
    rfl
  · induction tree with
    | table node leaf =>
        rw [attach_table_of_ne ho, NodeTree.tree, JoinTree.attach_table_of_ne _ _ ho]
    | join node left right m o ihl ihr =>
        have hop : o ≠ parent := ho
        have hl : (left.attach parent multiplicity spec child join).tree =
            left.tree.attach parent multiplicity spec := by
          by_cases h : left.tree.owner = parent
          · rw [attach_of_owner h, JoinTree.attach_of_owner _ _ h]
            rfl
          · exact ihl h
        have hr : (right.attach parent multiplicity spec child join).tree =
            right.tree.attach parent multiplicity spec := by
          by_cases h : right.tree.owner = parent
          · rw [attach_of_owner h, JoinTree.attach_of_owner _ _ h]
            rfl
          · exact ihr h
        rw [attach_join_of_ne hop, NodeTree.tree, hl, hr, NodeTree.tree,
          JoinTree.attach_join_of_ne _ _ hop]

theorem node_attach_of_ne {tree : NodeTree T C} (h : tree.tree.owner ≠ parent) :
    (tree.attach parent multiplicity spec child join).node = tree.node := by
  cases tree with
  | table node leaf => rw [attach_table_of_ne h]
  | join node left right m o =>
      have ho : o ≠ parent := h
      rw [attach_join_of_ne ho]
      rfl

theorem attach_of_not_mem {tree : NodeTree T C} (hs : tree.tree.Spined)
    (h : parent ∉ tree.tree.tables) :
    tree.attach parent multiplicity spec child join = tree := by
  induction tree with
  | table node leaf =>
      apply attach_table_of_ne
      rintro rfl
      simp [NodeTree.tree] at h
  | join node left right m o ihl ihr =>
      rw [NodeTree.tree, JoinTree.tables_join, List.mem_append, not_or] at h
      have ho : o ≠ parent := by
        rintro rfl
        exact h.1 (hs.1 ▸ JoinTree.owner_mem_tables hs.2.1)
      rw [attach_join_of_ne ho, ihl hs.2.1 h.1, ihr hs.2.2 h.2]

theorem nodes_attach_perm {tree : NodeTree T C} (hs : tree.tree.Spined)
    (hn : tree.tree.tables.Nodup) (hp : parent ∈ tree.tree.tables) :
    (tree.attach parent multiplicity spec child join).nodes.Perm (join :: child :: tree.nodes) := by
  by_cases ho : tree.tree.owner = parent
  · rw [attach_of_owner ho, nodes, nodes]
    exact (List.perm_append_singleton child tree.nodes).cons join
  · induction tree with
    | table node leaf => exact absurd (List.mem_singleton.mp hp).symm ho
    | join node left right m o ihl ihr =>
        rw [NodeTree.tree, JoinTree.tables_join] at hn hp
        have hop : o ≠ parent := ho
        have hol : left.tree.owner ≠ parent := hs.1 ▸ hop
        rw [attach_join_of_ne hop]
        simp only [nodes]
        rcases List.mem_append.mp hp with hl | hr
        · have hnr : parent ∉ right.tree.tables := fun hr =>
            List.disjoint_of_nodup_append hn hl hr
          rw [attach_of_not_mem hs.2.2 hnr]
          have hleft := (ihl hs.2.1 hn.of_append_left hl hol).append_right right.nodes
          exact (hleft.cons node).trans (@List.perm_middle _ _ [join, child] _).symm
        · have hnl : parent ∉ left.tree.tables := fun hl =>
            List.disjoint_of_nodup_append hn hl hr
          have hright : (right.attach parent multiplicity spec child join).nodes.Perm
              (join :: child :: right.nodes) := by
            by_cases hor : right.tree.owner = parent
            · rw [attach_of_owner hor, nodes, nodes]
              exact (List.perm_append_singleton child right.nodes).cons join
            · exact ihr hs.2.2 hn.of_append_right hr hor
          rw [attach_of_not_mem hs.2.1 hnl]
          have hmiddle : (left.nodes ++ join :: child :: right.nodes).Perm
              (join :: child :: (left.nodes ++ right.nodes)) :=
            List.perm_middle.trans (List.perm_middle.cons join)
          exact (((hright.append_left left.nodes).trans hmiddle).cons node).trans
            (@List.perm_middle _ _ [join, child] _).symm

end Attach

end NodeTree

/-- What a graft changes: two new nodes, the operand of the join above the attachment, and the
index of these three. -/
structure Draft.Grafted (draft draft' : Draft T C) (attachment : NodeId)
    (multiplicity : Multiplicity) (parent : T) (spec : TableSpec T C) (child join : NodeId) :
    Prop where
  child_node : draft'.nodes[child]? = some (.table spec)
  join_node : draft'.nodes[join]? = some (.join attachment child multiplicity parent)
  outer_node : ∀ outer, draft.joinAbove attachment = some outer → outer < draft.nodes.size →
    draft'.nodes[outer]? = (draft.nodes[outer]?).map (.replaceOperand attachment join)
  other_node : ∀ n < draft.nodes.size, draft.joinAbove attachment ≠ some n →
    draft'.nodes[n]? = draft.nodes[n]?
  joinAbove_child : draft'.joinAbove child = some join
  joinAbove_join : draft'.joinAbove join = draft.joinAbove attachment
  joinAbove_attachment : draft'.joinAbove attachment = some join
  joinAbove_other : ∀ n, n ≠ child → n ≠ join → n ≠ attachment →
    draft'.joinAbove n = draft.joinAbove n
  lookup_spec : draft'.tables.lookup spec.table = some child
  lookup_other : ∀ t ≠ spec.table, draft'.tables.lookup t = draft.tables.lookup t

section Held

variable {draft draft' : Draft T C} {multiplicity : Multiplicity} {parent : T}
  {spec : TableSpec T C} {child join : NodeId} {above : Option NodeId}

/-- The new nodes are past the old ones, so only the attachment has another join above it. -/
theorem Draft.Grafted.joinAbove_of_lt {attachment : NodeId}
    (g : draft.Grafted draft' attachment multiplicity parent spec child join)
    (hchild : draft.nodes.size ≤ child) (hjoin : draft.nodes.size ≤ join) {n : NodeId}
    (hlt : n < draft.nodes.size) (hne : n ≠ attachment) :
    draft'.joinAbove n = draft.joinAbove n :=
  g.joinAbove_other n (Nat.ne_of_lt (Nat.lt_of_lt_of_le hlt hchild))
    (Nat.ne_of_lt (Nat.lt_of_lt_of_le hlt hjoin)) hne

namespace NodeTree

/-- A part of the tree that neither holds the attachment nor the join above it stays as it is. -/
theorem HeldBy.of_grafted {tree : NodeTree T C} {attachment : NodeId}
    (h : tree.HeldBy draft above)
    (g : draft.Grafted draft' attachment multiplicity parent spec child join)
    (hd : tree.nodes.Nodup) (hlt : ∀ n ∈ tree.nodes, n < draft.nodes.size)
    (hchild : draft.nodes.size ≤ child) (hjoin : draft.nodes.size ≤ join)
    (hspec : spec.table ∉ tree.tree.tables)
    (ha : attachment ∉ tree.nodes)
    (ho : ∀ outer, draft.joinAbove attachment = some outer → outer ∉ tree.nodes) :
    tree.HeldBy draft' above := by
  have hold : ∀ n ∈ tree.nodes, draft'.joinAbove n = draft.joinAbove n := by
    intro n hn
    exact g.joinAbove_of_lt hchild hjoin (hlt n hn) (fun e => ha (e ▸ hn))
  apply h.frame hd
  · exact fun n hn => g.other_node n (hlt n hn) (fun e => ho n e hn)
  · rw [hold _ tree.node_mem_nodes, h.joinAbove_node]
  · exact fun n hn _ => hold n hn
  · exact fun t ht => g.lookup_other t (fun e => hspec (e ▸ ht))

theorem HeldBy.of_grafted_spine {tree : NodeTree T C}
    (h : tree.HeldBy draft above)
    (g : draft.Grafted draft' tree.node multiplicity parent spec child join)
    (hd : tree.nodes.Nodup) (hlt : ∀ n ∈ tree.nodes, n < draft.nodes.size)
    (hchild : draft.nodes.size ≤ child) (hjoin : draft.nodes.size ≤ join)
    (hspec : spec.table ∉ tree.tree.tables)
    (ha : ∀ outer, above = some outer → outer ∉ tree.nodes) :
    (NodeTree.join join tree (.table child spec) multiplicity parent).HeldBy draft' above := by
  refine ⟨g.join_node, ?_, ?_, g.child_node, g.joinAbove_child, g.lookup_spec⟩
  · rw [g.joinAbove_join, h.joinAbove_node]
  · apply h.frame hd
    · intro n hn
      refine g.other_node n (hlt n hn) (fun e => ?_)
      exact ha n (h.joinAbove_node ▸ e) hn
    · exact g.joinAbove_attachment
    · exact fun n hn hne => g.joinAbove_of_lt hchild hjoin (hlt n hn) hne
    · exact fun t ht => g.lookup_other t (fun e => hspec (e ▸ ht))

/-- Grafting at the top of the spine of a table attaches, wherever that spine is. -/
theorem HeldBy.attach {tree : NodeTree T C} (h : tree.HeldBy draft above)
    (g : draft.Grafted draft' (tree.top parent) multiplicity parent spec child join)
    (hs : tree.tree.Spined) (ht : tree.tree.tables.Nodup) (hd : tree.nodes.Nodup)
    (hlt : ∀ n ∈ tree.nodes, n < draft.nodes.size)
    (hchild : draft.nodes.size ≤ child) (hjoin : draft.nodes.size ≤ join)
    (hspec : spec.table ∉ tree.tree.tables) (hp : parent ∈ tree.tree.tables)
    (ha : ∀ outer, above = some outer → outer ∉ tree.nodes) :
    (tree.attach parent multiplicity spec child join).HeldBy draft' above := by
  by_cases ho : tree.tree.owner = parent
  · rw [top_of_owner ho] at g
    rw [attach_of_owner ho]
    exact h.of_grafted_spine g hd hlt hchild hjoin hspec ha
  induction tree generalizing above with
  | table node leaf => exact absurd (List.mem_singleton.mp hp).symm ho
  | join node left right m o ihl ihr =>
      have hop : o ≠ parent := ho
      rw [attach_join_of_ne hop]
      rw [top, if_neg hop] at g
      simp only [NodeTree.tree, JoinTree.tables_join, List.mem_append, not_or] at ht hspec hp
      simp only [nodes, List.nodup_cons, List.mem_append, not_or, List.mem_cons] at hd hlt
      obtain ⟨⟨hnl, hnr⟩, hlr⟩ := hd
      have hdisj := List.disjoint_of_nodup_append hlr
      have hnode_lt : node < draft.nodes.size := hlt node (.inl rfl)
      by_cases hpl : parent ∈ left.tree.tables
      · -- the spine of the parent is on the parent side, and not all of that side
        rw [if_pos hpl] at g
        have hol : left.tree.owner ≠ parent := hs.1 ▸ hop
        have hpr : parent ∉ right.tree.tables := fun hr => List.disjoint_of_nodup_append ht hpl hr
        have htop := top_mem_nodes parent left
        have hout : ∀ x, draft.joinAbove (left.top parent) = some x → x ∈ left.nodes := fun _ =>
          h.2.2.1.mem_of_joinAbove_top hpl hol
        rw [attach_of_not_mem hs.2.2 hpr]
        refine ⟨?_, ?_, ?_, ?_⟩
        · rw [node_attach_of_ne hol, g.other_node node hnode_lt (fun e => hnl (hout node e)), h.1]
        · rw [g.joinAbove_of_lt hchild hjoin hnode_lt (fun e => hnl (e ▸ htop)), h.2.1]
        · refine ihl h.2.2.1 g hs.2.1 ht.of_append_left hlr.of_append_left
            (fun n hn => hlt n (.inr (.inl hn))) hspec.1 hpl ?_ hol
          rintro x ⟨⟩
          exact hnl
        · refine h.2.2.2.of_grafted g hlr.of_append_right (fun n hn => hlt n (.inr (.inr hn)))
            hchild hjoin hspec.2 (fun hm => hdisj htop hm) ?_
          exact fun x hx hm => hdisj (hout x hx) hm
      · have hpr : parent ∈ right.tree.tables := hp.resolve_left hpl
        rw [if_neg hpl] at g
        have htop := top_mem_nodes parent right
        rw [attach_of_not_mem hs.2.1 hpl]
        by_cases hor : right.tree.owner = parent
        · -- the spine of the parent is all of the child side: the join here changes its operand
          rw [top_of_owner hor] at g
          have he : draft.joinAbove right.node = some node := h.2.2.2.joinAbove_node
          have hout : ∀ x, draft.joinAbove right.node = some x → x = node := by
            intro x hx
            exact (Option.some.inj (he.symm.trans hx)).symm
          rw [attach_of_owner hor]
          refine ⟨?_, ?_, ?_, ?_⟩
          · rw [g.outer_node node he hnode_lt, h.1]
            simp [DraftNode.replaceOperand, NodeTree.node]
          · rw [g.joinAbove_of_lt hchild hjoin hnode_lt
              (fun e => hnr (e ▸ right.node_mem_nodes)), h.2.1]
          · refine h.2.2.1.of_grafted g hlr.of_append_left (fun n hn => hlt n (.inr (.inl hn)))
              hchild hjoin hspec.1 (fun hm => hdisj hm right.node_mem_nodes) ?_
            exact fun x hx hm => hnl (hout x hx ▸ hm)
          · refine h.2.2.2.of_grafted_spine g hlr.of_append_right
              (fun n hn => hlt n (.inr (.inr hn))) hchild hjoin hspec.2 ?_
            rintro x ⟨⟩
            exact hnr
        · -- the spine of the parent is further down the child side
          have hout : ∀ x, draft.joinAbove (right.top parent) = some x → x ∈ right.nodes :=
            fun _ => h.2.2.2.mem_of_joinAbove_top hpr hor
          refine ⟨?_, ?_, ?_, ?_⟩
          · rw [node_attach_of_ne hor, g.other_node node hnode_lt (fun e => hnr (hout node e)), h.1]
          · rw [g.joinAbove_of_lt hchild hjoin hnode_lt (fun e => hnr (e ▸ htop)), h.2.1]
          · refine h.2.2.1.of_grafted g hlr.of_append_left (fun n hn => hlt n (.inr (.inl hn)))
              hchild hjoin hspec.1 (fun hm => hdisj hm htop) ?_
            exact fun x hx hm => hdisj hm (hout x hx)
          · refine ihr h.2.2.2 g hs.2.2 ht.of_append_right hlr.of_append_right
              (fun n hn => hlt n (.inr (.inr hn))) hspec.2 hpr ?_ hor
            rintro x ⟨⟩
            exact hnr

end NodeTree

end Held

end FlatAggregate
