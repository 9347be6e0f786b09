import FlatAggregate.Draft
import FlatAggregate.Proofs.Builder.Attachment

/-!
# The tree that a draft holds

A node tree is a join tree with the node of each of its tables and joins. A draft holds a node tree
when its nodes, its index of joins above and its register of tables all agree with that tree.

The index is exact: `joinAbove` leads from every operand to its join and from nothing else. So going
up from the node of a table ends at the top of its spine (`climb_eq_top`), and the tree can be read
back from its top node (`treeAt_eq_tree`).

`tree` forgets the nodes, `nodes` lists them and `node` is the one at the top. `HeldBy` goes along
the tree: at a join it asks for the node, for the entries of its operands in the index, and for both
sides in turn.
-/

namespace FlatAggregate

/-- A join tree with the node of each of its tables and joins. -/
inductive NodeTree (T C : Type) where
  | table (node : NodeId) (spec : TableSpec T C)
  | join (node : NodeId) (parent child : NodeTree T C) (multiplicity : Multiplicity) (owner : T)

namespace NodeTree

variable {T C : Type}

def node : NodeTree T C → NodeId
  | table node _ => node
  | join node _ _ _ _ => node

def tree : NodeTree T C → JoinTree T C
  | table _ spec => .table spec
  | join _ parent child multiplicity owner => .join parent.tree child.tree multiplicity owner

def nodes : NodeTree T C → List NodeId
  | table node _ => [node]
  | join node parent child _ _ => node :: (parent.nodes ++ child.nodes)

/-- The draft has the tree in its nodes, in its index and in its register, below the join
`above`. -/
def HeldBy [DecidableEq T] (draft : Draft T C) (above : Option NodeId) : NodeTree T C → Prop
  | table node spec =>
    draft.nodes[node]? = some (.table spec) ∧ draft.joinAbove node = above ∧
      draft.tables.lookup spec.table = some node
  | join node parent child multiplicity owner =>
    draft.nodes[node]? = some (.join parent.node child.node multiplicity owner) ∧
      draft.joinAbove node = above ∧
      parent.HeldBy draft (some node) ∧ child.HeldBy draft (some node)

theorem node_mem_nodes (tree : NodeTree T C) : tree.node ∈ tree.nodes := by
  cases tree <;> simp [node, nodes]

def top [DecidableEq T] (table : T) : NodeTree T C → NodeId
  | .table node _ => node
  | .join node parent child _ owner =>
    if owner = table then node
    else if table ∈ parent.tree.tables then parent.top table
    else child.top table

section Held

variable [DecidableEq T] {draft : Draft T C} {above : Option NodeId}

theorem top_of_owner {tree : NodeTree T C} {t : T} (h : tree.tree.owner = t) :
    tree.top t = tree.node := by
  cases tree with
  | table node spec => rfl
  | join node p c m o =>
      have ho : o = t := h
      exact if_pos ho

theorem top_mem_nodes (t : T) (tree : NodeTree T C) : tree.top t ∈ tree.nodes := by
  induction tree with
  | table node spec => exact List.mem_singleton_self node
  | join node p c m o ihp ihc =>
      rw [top, nodes]
      split
      · exact List.mem_cons_self
      · split
        · exact List.mem_cons_of_mem _ (List.mem_append_left _ ihp)
        · exact List.mem_cons_of_mem _ (List.mem_append_right _ ihc)

theorem HeldBy.joinAbove_node {tree : NodeTree T C} (h : tree.HeldBy draft above) :
    draft.joinAbove tree.node = above := by
  cases tree <;> exact h.2.1

theorem HeldBy.owner?_node {tree : NodeTree T C} (h : tree.HeldBy draft above) :
    draft.owner? tree.node = some tree.tree.owner := by
  cases tree with
  | table node spec => simp [Draft.owner?, NodeTree.node, h.1, NodeTree.tree, JoinTree.owner,
      DraftNode.owner]
  | join node p c m o => simp [Draft.owner?, NodeTree.node, h.1, NodeTree.tree, JoinTree.owner,
      DraftNode.owner]

/-- Every table of the tree is registered at a node of the tree that holds its specification. -/
theorem HeldBy.lookup_table {tree : NodeTree T C} (h : tree.HeldBy draft above) {t : T}
    (ht : t ∈ tree.tree.tables) :
    ∃ node spec, draft.tables.lookup t = some node ∧ draft.nodes[node]? = some (.table spec) ∧
      spec ∈ tree.tree.specs ∧ spec.table = t := by
  induction tree generalizing above with
  | table node spec =>
      obtain rfl : t = spec.table := List.mem_singleton.mp ht
      exact ⟨node, spec, h.2.2, h.1, List.mem_singleton_self spec, rfl⟩
  | join node p c m o ihp ihc =>
      rw [tree, JoinTree.tables_join, List.mem_append] at ht
      rw [tree, JoinTree.specs]
      rcases ht with hp | hc
      · obtain ⟨n, spec, hn, hs, hm, ht⟩ := ihp h.2.2.1 hp
        exact ⟨n, spec, hn, hs, List.mem_append_left _ hm, ht⟩
      · obtain ⟨n, spec, hn, hs, hm, ht⟩ := ihc h.2.2.2 hc
        exact ⟨n, spec, hn, hs, List.mem_append_right _ hm, ht⟩

/-- The join above a node of the tree is in the tree, or above all of it. -/
theorem HeldBy.joinAbove_mem {tree : NodeTree T C} (h : tree.HeldBy draft above) {n : NodeId}
    (hn : n ∈ tree.nodes) :
    draft.joinAbove n = above ∨ ∃ join ∈ tree.nodes, draft.joinAbove n = some join := by
  induction tree generalizing above with
  | table node spec =>
      obtain rfl : n = node := List.mem_singleton.mp hn
      exact .inl h.2.1
  | join node p c m o ihp ihc =>
      simp only [nodes, List.mem_cons, List.mem_append] at hn ⊢
      rcases hn with rfl | hp | hc
      · exact .inl h.2.1
      · rcases ihp h.2.2.1 hp with he | ⟨j, hj, he⟩
        · exact .inr ⟨node, .inl rfl, he⟩
        · exact .inr ⟨j, .inr (.inl hj), he⟩
      · rcases ihc h.2.2.2 hc with he | ⟨j, hj, he⟩
        · exact .inr ⟨node, .inl rfl, he⟩
        · exact .inr ⟨j, .inr (.inr hj), he⟩

/-- The spine of any table but the top one ends below a join of the tree. -/
theorem HeldBy.joinAbove_top {tree : NodeTree T C} (h : tree.HeldBy draft above) {t : T}
    (ht : t ∈ tree.tree.tables) (ho : tree.tree.owner ≠ t) :
    ∃ join ∈ tree.nodes, draft.joinAbove (tree.top t) = some join := by
  cases tree with
  | table node spec => exact absurd (List.mem_singleton.mp ht).symm ho
  | join node p c m o =>
      have hot : o ≠ t := ho
      rw [top, if_neg hot]
      split
      · rcases h.2.2.1.joinAbove_mem (top_mem_nodes t p) with he | ⟨j, hj, he⟩
        · exact ⟨node, List.mem_cons_self, he⟩
        · exact ⟨j, List.mem_cons_of_mem _ (List.mem_append_left _ hj), he⟩
      · rcases h.2.2.2.joinAbove_mem (top_mem_nodes t c) with he | ⟨j, hj, he⟩
        · exact ⟨node, List.mem_cons_self, he⟩
        · exact ⟨j, List.mem_cons_of_mem _ (List.mem_append_right _ hj), he⟩

theorem HeldBy.mem_of_joinAbove_top {tree : NodeTree T C} (h : tree.HeldBy draft above) {t : T}
    (ht : t ∈ tree.tree.tables) (ho : tree.tree.owner ≠ t) {join : NodeId}
    (hj : draft.joinAbove (tree.top t) = some join) : join ∈ tree.nodes := by
  obtain ⟨outer, houter, he⟩ := h.joinAbove_top ht ho
  rwa [← Option.some.inj (he.symm.trans hj)]

/-- What a draft holds depends on the nodes of the tree only; the join above the top one may be
another. -/
theorem HeldBy.frame {tree : NodeTree T C} (h : tree.HeldBy draft above) {draft' : Draft T C}
    {above' : Option NodeId} (hd : tree.nodes.Nodup)
    (hn : ∀ n ∈ tree.nodes, draft'.nodes[n]? = draft.nodes[n]?)
    (ha : draft'.joinAbove tree.node = above')
    (hj : ∀ n ∈ tree.nodes, n ≠ tree.node → draft'.joinAbove n = draft.joinAbove n)
    (ht : ∀ t ∈ tree.tree.tables, draft'.tables.lookup t = draft.tables.lookup t) :
    tree.HeldBy draft' above' := by
  induction tree generalizing above above' with
  | table node spec =>
      refine ⟨?_, ha, ?_⟩
      · rw [hn node (List.mem_singleton_self node), h.1]
      · rw [ht spec.table (List.mem_singleton_self _), h.2.2]
  | join node p c m o ihp ihc =>
      simp only [nodes, List.nodup_cons, List.mem_append, not_or, List.mem_cons, tree,
        JoinTree.tables_join, NodeTree.node] at hd hn hj ht ha
      obtain ⟨⟨hnp, hnc⟩, hpc⟩ := hd
      have hjp : ∀ n ∈ p.nodes, draft'.joinAbove n = draft.joinAbove n := fun n hm =>
        hj n (.inr (.inl hm)) (fun e => hnp (e ▸ hm))
      have hjc : ∀ n ∈ c.nodes, draft'.joinAbove n = draft.joinAbove n := fun n hm =>
        hj n (.inr (.inr hm)) (fun e => hnc (e ▸ hm))
      refine ⟨?_, ha, ?_, ?_⟩
      · rw [hn node (.inl rfl), h.1]
      · apply ihp h.2.2.1 hpc.of_append_left
        · exact fun n hm => hn n (.inr (.inl hm))
        · rw [hjp _ p.node_mem_nodes, h.2.2.1.joinAbove_node]
        · exact fun n hm _ => hjp n hm
        · exact fun t hm => ht t (.inl hm)
      · apply ihc h.2.2.2 hpc.of_append_right
        · exact fun n hm => hn n (.inr (.inr hm))
        · rw [hjc _ c.node_mem_nodes, h.2.2.2.joinAbove_node]
        · exact fun n hm _ => hjc n hm
        · exact fun t hm => ht t (.inr hm)

theorem HeldBy.treeAt_eq_tree {tree : NodeTree T C} (h : tree.HeldBy draft above) {depth : Nat}
    (hd : tree.nodes.length ≤ depth) : draft.treeAt depth tree.node = some tree.tree := by
  induction tree generalizing above depth with
  | table node spec =>
      obtain ⟨d, rfl⟩ : ∃ d, depth = d + 1 := Nat.exists_eq_add_of_le' hd
      rw [Draft.treeAt, NodeTree.node, h.1]
      rfl
  | join node p c m o ihp ihc =>
      simp only [nodes, List.length_cons, List.length_append] at hd
      obtain ⟨d, rfl⟩ : ∃ d, depth = d + 1 := ⟨depth - 1, by omega⟩
      rw [Draft.treeAt, NodeTree.node, h.1]
      simp only [ihp h.2.2.1 (show _ ≤ d by omega), ihc h.2.2.2 (show _ ≤ d by omega)]
      rfl

section Climb

variable {t : T} {start : NodeId}

theorem climb_eq_self {steps : Nat}
    (h : ∀ join, draft.joinAbove start = some join → draft.owner? join ≠ some t) :
    draft.climb t steps start = start := by
  cases steps with
  | zero => rfl
  | succ steps =>
      rw [Draft.climb]
      cases hj : draft.joinAbove start with
      | none => rfl
      | some join => simp [h join hj]

theorem HeldBy.climb_spine {tree : NodeTree T C} (h : tree.HeldBy draft above)
    (hs : tree.tree.Spined) (ho : tree.tree.owner = t)
    (ht : draft.tables.lookup t = some start) :
    ∃ k < tree.nodes.length, ∀ steps,
      draft.climb t (k + steps) start = draft.climb t steps tree.node := by
  induction tree generalizing above with
  | table node spec =>
      obtain rfl : spec.table = t := ho
      obtain rfl : node = start := Option.some.inj (h.2.2.symm.trans ht)
      exact ⟨0, by simp [nodes], fun steps => by rw [Nat.zero_add, NodeTree.node]⟩
  | join node p c m o ihp _ =>
      obtain rfl : o = t := ho
      obtain ⟨k, hk, hclimb⟩ := ihp h.2.2.1 hs.2.1 hs.1
      have hup : ∀ steps, draft.climb o (steps + 1) p.node = draft.climb o steps node := by
        intro steps
        have howner : draft.owner? node = some o := HeldBy.owner?_node h
        rw [Draft.climb, h.2.2.1.joinAbove_node]
        simp [howner]
      refine ⟨k + 1, by simp only [nodes, List.length_cons, List.length_append]; omega, ?_⟩
      intro steps
      rw [show k + 1 + steps = k + (steps + 1) by omega, hclimb, hup]
      rfl

/-- Going up from the node of a table ends at the top of its spine. -/
theorem HeldBy.climb_eq_top {tree : NodeTree T C} (h : tree.HeldBy draft above)
    (hs : tree.tree.Spined) (hm : t ∈ tree.tree.tables)
    (ha : ∀ join, above = some join → draft.owner? join ≠ some t)
    (ht : draft.tables.lookup t = some start) {steps : Nat} (hl : tree.nodes.length ≤ steps) :
    draft.climb t steps start = tree.top t := by
  by_cases ho : tree.tree.owner = t
  · obtain ⟨k, hk, hclimb⟩ := h.climb_spine hs ho ht
    rw [top_of_owner ho, show steps = k + (steps - k) by omega, hclimb]
    apply climb_eq_self
    intro join hj
    exact ha join (h.joinAbove_node ▸ hj)
  · induction tree generalizing above with
    | table node spec => exact absurd (List.mem_singleton.mp hm).symm ho
    | join node p c m o ihp ihc =>
        have hot : o ≠ t := ho
        have howner : ∀ join, some node = some join → draft.owner? join ≠ some t := by
          rintro join ⟨⟩ he
          exact hot (Option.some.inj ((HeldBy.owner?_node h).symm.trans he))
        simp only [nodes, List.length_cons, List.length_append] at hl
        rw [tree, JoinTree.tables_join, List.mem_append] at hm
        rw [top, if_neg hot]
        split
        next hp =>
          have hop : p.tree.owner ≠ t := hs.1 ▸ hot
          exact ihp h.2.2.1 hs.2.1 hp howner (by omega) hop
        next hp =>
          have hc := hm.resolve_left hp
          by_cases hoc : c.tree.owner = t
          · obtain ⟨k, hk, hclimb⟩ := h.2.2.2.climb_spine hs.2.2 hoc ht
            rw [top_of_owner hoc, show steps = k + (steps - k) by omega, hclimb]
            apply climb_eq_self
            intro join hj
            exact howner join (h.2.2.2.joinAbove_node ▸ hj)
          · exact ihc h.2.2.2 hs.2.2 hc howner (by omega) hoc

end Climb

end Held

end NodeTree

end FlatAggregate
