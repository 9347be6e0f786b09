import FlatAggregate.Proofs.Builder.Acceptance
import FlatAggregate.Proofs.Builder.Ancestry
import FlatAggregate.Proofs.Builder.Calls
import Mathlib.Logic.Relation

/-!
# The nodes of a draft

After accepted calls the nodes of a draft are one join tree, and the draft knows its way in it. The
index has the join above every operand and nothing else, the register has the node of every table
(`Indexed`). Every join belongs to a table: on its parent side are the table itself and its earlier
joins, on its child side a table added below it with the joins of that table
(`Holds.exists_sides`).

So the way up from a table ends at the topmost join of that table, or at the table itself, and where
that is an operand it is the child side of a join (`ClimbEndsAt`).

`parts` lists a tree and all trees in it; what is shown for one part holds for all, because a draft
that holds a tree holds its parts. The way down from the top (`Leads`) reaches every node, and one
step up within a spine (`ClimbsTo`) goes to a join of the same table.
-/

namespace FlatAggregate

variable {T C : Type}

def DraftNode.operands : DraftNode T C → List NodeId
  | table _ => []
  | join parent child _ _ => [parent, child]

def DraftNode.isJoin : DraftNode T C → Bool
  | table _ => false
  | join .. => true

namespace Draft

def operandsOf (draft : Draft T C) (join : NodeId) : List NodeId :=
  (draft.nodes[join]?.map DraftNode.operands).getD []

theorem operandsOf_of_node {draft : Draft T C} {join : NodeId} {node : DraftNode T C}
    (h : draft.nodes[join]? = some node) : draft.operandsOf join = node.operands := by
  rw [operandsOf, h]
  rfl

def OwnsJoin (draft : Draft T C) (table : T) (node : NodeId) : Prop :=
  ∃ parent child multiplicity, draft.nodes[node]? = some (.join parent child multiplicity table)

def Leads (draft : Draft T C) : NodeId → NodeId → Prop :=
  Relation.ReflTransGen fun join operand => operand ∈ draft.operandsOf join

section

variable [DecidableEq T]

/-- The node is the one of `table` or one of its joins. -/
def StandsFor (draft : Draft T C) (table : T) (node : NodeId) : Prop :=
  draft.tables.lookup table = some node ∨ draft.OwnsJoin table node

def ClimbsTo (draft : Draft T C) (table : T) (node join : NodeId) : Prop :=
  draft.joinAbove node = some join ∧ draft.owner? join = some table

end

end Draft

namespace NodeTree

variable [DecidableEq T] {draft : Draft T C} {above : Option NodeId} {tree : NodeTree T C}

def parts : NodeTree T C → List (NodeTree T C)
  | table node spec => [table node spec]
  | join node parent child multiplicity owner =>
    join node parent child multiplicity owner :: (parent.parts ++ child.parts)

omit [DecidableEq T] in
theorem self_mem_parts (tree : NodeTree T C) : tree ∈ tree.parts := by
  cases tree <;> exact List.mem_cons_self

omit [DecidableEq T] in
theorem map_node_parts (tree : NodeTree T C) : tree.parts.map node = tree.nodes := by
  induction tree with
  | table node spec => rfl
  | join node p c m o ihp ihc =>
      rw [parts, nodes, List.map_cons, List.map_append, ihp, ihc]
      rfl

omit [DecidableEq T] in
theorem map_tree_parts (tree : NodeTree T C) :
    tree.parts.map NodeTree.tree = tree.tree.parts := by
  induction tree with
  | table node spec => rfl
  | join node p c m o ihp ihc =>
      rw [parts, NodeTree.tree, JoinTree.parts, List.map_cons, List.map_append, ihp, ihc]
      rfl

theorem HeldBy.of_mem_parts (h : tree.HeldBy draft above) {part : NodeTree T C}
    (hp : part ∈ tree.parts) : ∃ outer, part.HeldBy draft outer := by
  induction tree generalizing above with
  | table node spec =>
      rw [List.mem_singleton.mp hp]
      exact ⟨above, h⟩
  | join node l r m o ihl ihr =>
      rw [parts, List.mem_cons, List.mem_append] at hp
      rcases hp with rfl | hp | hp
      · exact ⟨above, h⟩
      · exact ihl h.2.2.1 hp
      · exact ihr h.2.2.2 hp

theorem HeldBy.exists_part (h : tree.HeldBy draft above) {n : NodeId} (hn : n ∈ tree.nodes) :
    ∃ part ∈ tree.parts, part.node = n ∧ ∃ outer, part.HeldBy draft outer := by
  rw [← map_node_parts] at hn
  obtain ⟨part, hp, rfl⟩ := List.mem_map.mp hn
  exact ⟨part, hp, rfl, h.of_mem_parts hp⟩

/-- The top of a tree and all operands in it are its nodes, once each. -/
theorem HeldBy.perm_operands (h : tree.HeldBy draft above) :
    (tree.node :: tree.nodes.flatMap draft.operandsOf).Perm tree.nodes := by
  induction tree generalizing above with
  | table node spec =>
      rw [nodes, List.flatMap_singleton, Draft.operandsOf_of_node h.1]
      exact .refl _
  | join node l r m o ihl ihr =>
      rw [nodes, List.flatMap_cons, List.flatMap_append, Draft.operandsOf_of_node h.1]
      have hsides := (ihl h.2.2.1).append (ihr h.2.2.2)
      exact ((List.perm_middle.symm.cons l.node).trans hsides).cons node

theorem HeldBy.exists_join_of_ne (h : tree.HeldBy draft above) {n : NodeId} (hn : n ∈ tree.nodes)
    (hne : n ≠ tree.node) : ∃ join ∈ tree.nodes, n ∈ draft.operandsOf join := by
  have hmem := h.perm_operands.mem_iff.mpr hn
  exact List.mem_flatMap.mp ((List.mem_cons.mp hmem).resolve_left hne)

/-- The index leads from an operand to its join. -/
theorem HeldBy.joinAbove_of_mem (h : tree.HeldBy draft above) {n join : NodeId}
    (hj : join ∈ tree.nodes) (hn : n ∈ draft.operandsOf join) : draft.joinAbove n = some join := by
  obtain ⟨part, -, rfl, outer, hpart⟩ := h.exists_part hj
  cases part with
  | table node spec =>
      rw [NodeTree.node, Draft.operandsOf_of_node hpart.1] at hn
      contradiction
  | join node l r m o =>
      rw [NodeTree.node, Draft.operandsOf_of_node hpart.1, DraftNode.operands,
        List.mem_pair] at hn
      rcases hn with rfl | rfl
      · exact hpart.2.2.1.joinAbove_node
      · exact hpart.2.2.2.joinAbove_node

theorem HeldBy.leads (h : tree.HeldBy draft above) {n : NodeId} (hn : n ∈ tree.nodes) :
    draft.Leads tree.node n := by
  induction tree generalizing above with
  | table node spec =>
      rw [List.mem_singleton.mp hn]
      exact .refl
  | join node l r m o ihl ihr =>
      have hoperands := Draft.operandsOf_of_node h.1
      rw [nodes, List.mem_cons, List.mem_append] at hn
      rcases hn with rfl | hn | hn
      · exact .refl
      · exact .head (hoperands ▸ List.mem_cons_self) (ihl h.2.2.1 hn)
      · exact .head (hoperands ▸ List.mem_cons_of_mem _ List.mem_cons_self) (ihr h.2.2.2 hn)

section Owners

variable {t : T}

omit [DecidableEq T] in
theorem owner_mem_of_mem_parts (hs : tree.tree.Spined) {part : NodeTree T C}
    (hp : part ∈ tree.parts) : part.tree.owner ∈ tree.tree.tables := by
  have hmem : part.tree ∈ tree.tree.parts := map_tree_parts tree ▸ List.mem_map_of_mem hp
  exact (JoinTree.sublist_of_mem_parts hmem).mem (JoinTree.owner_mem_tables (hs.of_mem_parts hmem))

/-- The top of a tree stands for the table that the tree belongs to. -/
theorem HeldBy.standsFor (h : tree.HeldBy draft above) :
    draft.StandsFor tree.tree.owner tree.node := by
  cases tree with
  | table node spec => exact .inl h.2.2
  | join node l r m o => exact .inr ⟨l.node, r.node, m, h.1⟩

/-- The spine of a table ends at the top of a part which has all other parts of the table in it. -/
theorem exists_part_top (hs : tree.tree.Spined) (hn : tree.tree.tables.Nodup)
    (ht : t ∈ tree.tree.tables) :
    ∃ part ∈ tree.parts, part.node = tree.top t ∧ part.tree.owner = t ∧
      ∀ other ∈ tree.parts, other.tree.owner = t → other ∈ part.parts := by
  induction tree with
  | table node spec =>
      exact ⟨_, self_mem_parts _, rfl, (List.mem_singleton.mp ht).symm, fun _ h _ => h⟩
  | join node l r m o ihl ihr =>
      by_cases ho : o = t
      · exact ⟨_, self_mem_parts _, (if_pos ho).symm, ho, fun _ h _ => h⟩
      rw [NodeTree.tree, JoinTree.tables_join] at hn ht
      have hdisj := List.disjoint_of_nodup_append hn
      rw [top, if_neg ho]
      split
      next hl =>
        obtain ⟨part, hp, hnode, howner, hall⟩ := ihl hs.2.1 hn.of_append_left hl
        refine ⟨part, List.mem_cons_of_mem _ (List.mem_append_left _ hp), hnode, howner, ?_⟩
        intro other hother hot
        rw [parts, List.mem_cons, List.mem_append] at hother
        rcases hother with rfl | hother | hother
        · exact absurd hot ho
        · exact hall other hother hot
        · exact absurd (hot ▸ owner_mem_of_mem_parts hs.2.2 hother) (hdisj hl)
      next hl =>
        have hr := (List.mem_append.mp ht).resolve_left hl
        obtain ⟨part, hp, hnode, howner, hall⟩ := ihr hs.2.2 hn.of_append_right hr
        refine ⟨part, List.mem_cons_of_mem _ (List.mem_append_right _ hp), hnode, howner, ?_⟩
        intro other hother hot
        rw [parts, List.mem_cons, List.mem_append] at hother
        rcases hother with rfl | hother | hother
        · exact absurd hot ho
        · exact absurd (hot ▸ owner_mem_of_mem_parts hs.2.1 hother) hl
        · exact hall other hother hot

theorem HeldBy.owner?_above_top (h : tree.HeldBy draft above) (ht : t ∈ tree.tree.tables)
    (ha : ∀ join, above = some join → draft.owner? join ≠ some t) {join : NodeId}
    (hj : draft.joinAbove (tree.top t) = some join) : draft.owner? join ≠ some t := by
  induction tree generalizing above with
  | table node spec => exact ha join (h.2.1.symm.trans hj)
  | join node l r m o ihl ihr =>
      by_cases ho : o = t
      · rw [top, if_pos ho] at hj
        exact ha join (h.2.1.symm.trans hj)
      have howner : ∀ join, some node = some join → draft.owner? join ≠ some t := by
        rintro join ⟨⟩ heq
        exact ho (Option.some.inj ((HeldBy.owner?_node h).symm.trans heq))
      rw [NodeTree.tree, JoinTree.tables_join] at ht
      rw [top, if_neg ho] at hj
      split at hj
      next hl => exact ihl h.2.2.1 hl howner hj
      next hl => exact ihr h.2.2.2 ((List.mem_append.mp ht).resolve_left hl) howner hj

end Owners

end NodeTree

namespace Draft

variable [DecidableEq T]

/-- The nodes of a draft are one tree with `root` on top, its index has the join above every operand
and its register the node of every table. -/
structure Indexed (draft : Draft T C) (root : NodeId) : Prop where
  root_eq : draft.root = some root
  joinAbove_iff : ∀ n join, draft.joinAbove n = some join ↔ n ∈ draft.operandsOf join
  /-- The root and the operands of all joins are the nodes of the draft, once each. -/
  perm_operands : (root :: (List.range draft.nodes.size).flatMap draft.operandsOf).Perm
    (List.range draft.nodes.size)
  joinAbove_eq_none_iff : ∀ n < draft.nodes.size, draft.joinAbove n = none ↔ n = root
  leads : ∀ n < draft.nodes.size, draft.Leads root n
  lookup_iff : ∀ t n, draft.tables.lookup t = some n ↔
    ∃ spec, draft.nodes[n]? = some (.table spec) ∧ spec.table = t
  nodup_tables : (draft.tables.map Prod.fst).Nodup
  /-- There is one join less than there are tables. -/
  countP_joins : draft.nodes.toList.countP DraftNode.isJoin + 1 = draft.tables.length

/-- `top` is where the way up from a table ends: at the topmost of its joins, or at its own `node`
if it has no join. The join above is another table's, on whose child side it stands. -/
structure ClimbEndsAt (draft : Draft T C) (table : T) (node top : NodeId) : Prop where
  climbs : Relation.ReflTransGen (draft.ClimbsTo table) node top
  ends : ∀ join, ¬ draft.ClimbsTo table top join
  standsFor : draft.StandsFor table top
  topmost : ∀ join, draft.OwnsJoin table join → draft.Leads top join
  above : ∀ join, draft.joinAbove top = some join → ∃ parent multiplicity owner,
    draft.nodes[join]? = some (.join parent top multiplicity owner)

theorem reflTransGen_climb (draft : Draft T C) (table : T) (steps : Nat) (node : NodeId) :
    Relation.ReflTransGen (draft.ClimbsTo table) node (draft.climb table steps node) := by
  induction steps generalizing node with
  | zero => exact .refl
  | succ steps ih =>
      rw [climb]
      split
      next join hjoin =>
        split
        next howner => exact .head ⟨hjoin, howner⟩ (ih join)
        next howner => exact .refl
      next hjoin => exact .refl

section Holds

variable {draft : Draft T C} {tree : NodeTree T C}

theorem Holds.mem_nodes_of_node (h : draft.Holds tree) {n : NodeId} {node : DraftNode T C}
    (hn : draft.nodes[n]? = some node) : n ∈ tree.nodes :=
  (h.mem_nodes n).mpr (Array.getElem?_eq_some_iff.mp hn).1

theorem Holds.mem_nodes_of_mem_operandsOf (h : draft.Holds tree) {n join : NodeId}
    (hn : n ∈ draft.operandsOf join) : join ∈ tree.nodes := by
  cases hjoin : draft.nodes[join]? with
  | none => simp [operandsOf, hjoin] at hn
  | some node => exact h.mem_nodes_of_node hjoin

theorem Holds.joinAbove_iff (h : draft.Holds tree) (n join : NodeId) :
    draft.joinAbove n = some join ↔ n ∈ draft.operandsOf join := by
  refine ⟨fun heq => ?_, fun hn => h.held.joinAbove_of_mem (h.mem_nodes_of_mem_operandsOf hn) hn⟩
  by_cases hn : n ∈ tree.nodes
  · by_cases hne : n = tree.node
    · rw [hne, h.held.joinAbove_node] at heq
      contradiction
    · obtain ⟨other, hother, hmem⟩ := h.held.exists_join_of_ne hn hne
      have hjoin := (h.held.joinAbove_of_mem hother hmem).symm.trans heq
      rwa [← Option.some.inj hjoin]
  · rw [h.fresh n (Nat.le_of_not_lt fun hlt => hn ((h.mem_nodes n).mpr hlt))] at heq
    contradiction

theorem Holds.joinAbove_eq_none_iff (h : draft.Holds tree) {n : NodeId}
    (hn : n < draft.nodes.size) : draft.joinAbove n = none ↔ n = tree.node := by
  constructor
  · intro hnone
    by_contra hne
    obtain ⟨join, hjoin, hmem⟩ := h.held.exists_join_of_ne ((h.mem_nodes n).mpr hn) hne
    rw [h.held.joinAbove_of_mem hjoin hmem] at hnone
    contradiction
  · rintro rfl
    exact h.held.joinAbove_node

theorem Holds.perm_range (h : draft.Holds tree) :
    tree.nodes.Perm (List.range draft.nodes.size) :=
  (List.perm_ext_iff_of_nodup h.nodup List.nodup_range).mpr fun n =>
    (h.mem_nodes n).trans List.mem_range.symm

theorem Holds.perm_operands (h : draft.Holds tree) :
    (tree.node :: (List.range draft.nodes.size).flatMap draft.operandsOf).Perm
      (List.range draft.nodes.size) :=
  ((h.perm_range.symm.flatMap_right _).cons _).trans (h.held.perm_operands.trans h.perm_range)

theorem Holds.lookup_iff (h : draft.Holds tree) (t : T) (n : NodeId) :
    draft.tables.lookup t = some n ↔
      ∃ spec, draft.nodes[n]? = some (.table spec) ∧ spec.table = t := by
  constructor
  · intro hlookup
    have ht : t ∈ tree.tree.tables := by rw [← h.registered, hlookup, Option.isSome_some]
    obtain ⟨node, spec, hnode, hspec, -, htable⟩ := h.held.lookup_table ht
    obtain rfl : node = n := Option.some.inj (hnode.symm.trans hlookup)
    exact ⟨spec, hspec, htable⟩
  · rintro ⟨spec, hspec, rfl⟩
    obtain ⟨part, -, rfl, outer, hpart⟩ := h.held.exists_part (h.mem_nodes_of_node hspec)
    cases part with
    | table node leaf =>
        obtain rfl : leaf = spec := by simpa [NodeTree.node, hpart.1] using hspec
        exact hpart.2.2
    | join node l r m o => simp [NodeTree.node, hpart.1] at hspec

/-- A join has on its parent side its table with the earlier joins of that table, and on its child
side another table with all joins of that one. -/
theorem Holds.exists_sides (h : draft.Holds tree) {join parent child : NodeId}
    {multiplicity : Multiplicity} {owner : T}
    (hjoin : draft.nodes[join]? = some (.join parent child multiplicity owner)) :
    draft.StandsFor owner parent ∧ ∃ left right,
      .join left right multiplicity owner ∈ tree.tree.parts ∧
        draft.StandsFor right.rootSpec.table child := by
  obtain ⟨part, hp, rfl, outer, hpart⟩ := h.held.exists_part (h.mem_nodes_of_node hjoin)
  cases part with
  | table node leaf => simp [NodeTree.node, hpart.1] at hjoin
  | join node l r m o =>
      obtain ⟨rfl, rfl, rfl, rfl⟩ : l.node = parent ∧ r.node = child ∧ m = multiplicity ∧
          o = owner := by simpa [NodeTree.node, hpart.1] using hjoin
      have hmem : (NodeTree.join node l r m o).tree ∈ tree.tree.parts :=
        NodeTree.map_tree_parts tree ▸ List.mem_map_of_mem hp
      obtain ⟨howner, hleft, hright⟩ := h.spined.of_mem_parts hmem
      refine ⟨?_, l.tree, r.tree, hmem, ?_⟩
      · rw [← howner]
        exact hpart.2.2.1.standsFor
      · rw [JoinTree.table_rootSpec hright]
        exact hpart.2.2.2.standsFor

theorem Holds.owner?_of_standsFor (h : draft.Holds tree) {t : T} {n : NodeId}
    (hn : draft.StandsFor t n) : draft.owner? n = some t := by
  rcases hn with hn | ⟨parent, child, m, hn⟩
  · obtain ⟨spec, hspec, rfl⟩ := (h.lookup_iff t n).mp hn
    rw [owner?, hspec]
    rfl
  · rw [owner?, hn]
    rfl

theorem Holds.climbEndsAt (h : draft.Holds tree) {t : T} {node : NodeId}
    (ht : draft.tables.lookup t = some node) :
    draft.ClimbEndsAt t node (draft.attachmentPoint t node) := by
  have hmem : t ∈ tree.tree.tables := by rw [← h.registered, ht, Option.isSome_some]
  have hclimbs := draft.reflTransGen_climb t draft.nodes.size node
  rw [← attachmentPoint, h.attachmentPoint_eq ht] at hclimbs
  rw [h.attachmentPoint_eq ht]
  obtain ⟨part, hp, hnode, howner, hall⟩ :=
    NodeTree.exists_part_top h.spined h.tables_nodup hmem
  obtain ⟨outer, hpart⟩ := h.held.of_mem_parts hp
  have hstands : draft.StandsFor t (tree.top t) := by
    rw [← hnode, ← howner]
    exact hpart.standsFor
  have habove : ∀ join, draft.joinAbove (tree.top t) = some join → draft.owner? join ≠ some t :=
    fun join hj => h.held.owner?_above_top hmem (by simp) hj
  constructor
  · exact hclimbs
  · exact fun join hj => habove join hj.1 hj.2
  · exact hstands
  · rintro join ⟨parent, child, m, hj⟩
    obtain ⟨other, hother, rfl, outer', hheld⟩ := h.held.exists_part (h.mem_nodes_of_node hj)
    have hsame : other.tree.owner = t := by
      have heq := hheld.owner?_node
      rw [owner?, hj] at heq
      exact (Option.some.inj heq).symm
    rw [← hnode]
    refine hpart.leads ?_
    rw [← NodeTree.map_node_parts]
    exact List.mem_map_of_mem (hall other hother hsame)
  · -- on the parent side of a join is a node of the owner of that join
    intro join hj
    have hoperand := (h.joinAbove_iff _ _).mp hj
    obtain ⟨above, -, rfl, outer', hheld⟩ :=
      h.held.exists_part (h.mem_nodes_of_mem_operandsOf hoperand)
    cases above with
    | table n leaf =>
        rw [NodeTree.node, operandsOf_of_node hheld.1] at hoperand
        contradiction
    | join n l r m o =>
        rw [NodeTree.node, operandsOf_of_node hheld.1, DraftNode.operands,
          List.mem_pair] at hoperand
        rcases hoperand with hl | hr
        · have hparent := (h.exists_sides hheld.1).1
          rw [← hl] at hparent
          have hsame : t = o := Option.some.inj
            ((h.owner?_of_standsFor hstands).symm.trans (h.owner?_of_standsFor hparent))
          refine absurd ?_ (habove n hj)
          rw [owner?, hheld.1, hsame]
          rfl
        · exact ⟨l.node, m, o, hr ▸ hheld.1⟩

end Holds

section Counts

omit [DecidableEq T] in
theorem flatMap_operandsOf (draft : Draft T C) :
    (List.range draft.nodes.size).flatMap draft.operandsOf =
      draft.nodes.toList.flatMap DraftNode.operands := by
  have hnodes : ∀ nodes : List (DraftNode T C), (List.range nodes.length).flatMap
      (fun n => (nodes[n]?.map DraftNode.operands).getD []) =
        nodes.flatMap DraftNode.operands := by
    intro nodes
    induction nodes with
    | nil => rfl
    | cons node rest ih =>
        rw [List.length_cons, List.range_succ_eq_map, List.flatMap_cons, List.flatMap_map,
          List.flatMap_cons, ← ih]
        rfl
  rw [← hnodes, Array.length_toList]
  simp only [Array.getElem?_toList]
  rfl

omit [DecidableEq T] in
theorem length_flatMap_operands (nodes : List (DraftNode T C)) :
    (nodes.flatMap DraftNode.operands).length = 2 * nodes.countP DraftNode.isJoin := by
  induction nodes with
  | nil => rfl
  | cons node rest ih =>
      rw [List.flatMap_cons, List.length_append, ih, List.countP_cons]
      cases node with
      | table spec => simp [DraftNode.operands, DraftNode.isJoin]
      | join parent child m o =>
          simp only [DraftNode.operands, DraftNode.isJoin, List.length_cons, List.length_nil,
            if_pos]
          omega

variable [ToString T] {draft : Draft T C} {root : TableSpec T C} {additions : List (Addition T C)}

theorem exists_graft_of_add {next : Draft T C} {addition : Addition T C}
    (h : draft.add addition = .ok next) :
    ∃ node, next = draft.graft addition.parent node addition.multiplicity addition.spec := by
  rw [add, addChild] at h
  split at h
  · contradiction
  · split at h
    · contradiction
    · split_ifs at h
      exact ⟨_, (Except.ok.inj h).symm⟩

theorem size_of_assemble (h : assemble root additions = .ok draft) :
    draft.nodes.size = 2 * additions.length + 1 := by
  induction additions using List.reverseRecOn generalizing draft with
  | nil =>
      rw [assemble_nil] at h
      rw [← Except.ok.inj h]
      rfl
  | append_singleton additions addition ih =>
      obtain ⟨before, hbefore, hadd⟩ := assemble_append_singleton h
      obtain ⟨node, rfl⟩ := exists_graft_of_add hadd
      rw [size_graft, ih hbefore, List.length_append, List.length_singleton]
      omega

theorem map_fst_tables_of_assemble (h : assemble root additions = .ok draft) :
    draft.tables.map Prod.fst =
      ((root :: additions.map Addition.spec).map TableSpec.table).reverse := by
  induction additions using List.reverseRecOn generalizing draft with
  | nil =>
      rw [assemble_nil] at h
      rw [← Except.ok.inj h]
      rfl
  | append_singleton additions addition ih =>
      obtain ⟨before, hbefore, hadd⟩ := assemble_append_singleton h
      obtain ⟨node, rfl⟩ := exists_graft_of_add hadd
      rw [tables_graft, List.map_cons, ih hbefore]
      simp

theorem indexed_of_assemble (h : assemble root additions = .ok draft) :
    ∃ top, draft.Indexed top := by
  obtain ⟨tree, hholds, -⟩ := assemble_holds h
  have htables := map_fst_tables_of_assemble h
  refine ⟨tree.node, ?_⟩
  constructor
  · exact hholds.root
  · exact hholds.joinAbove_iff
  · exact hholds.perm_operands
  · exact fun n hn => hholds.joinAbove_eq_none_iff hn
  · exact fun n hn => hholds.held.leads ((hholds.mem_nodes n).mpr hn)
  · exact hholds.lookup_iff
  · rw [htables, List.nodup_reverse]
    exact nodup_tables_of_assemble h
  · -- the root and the two operands of every join are all nodes
    have hnodes := hholds.perm_operands.length_eq
    rw [List.length_cons, flatMap_operandsOf, length_flatMap_operands, List.length_range,
      size_of_assemble h] at hnodes
    have hlength := congrArg List.length htables
    simp only [List.length_map, List.length_reverse, List.length_cons] at hlength
    omega

end Counts

section Calls

variable [ToString T] {draft : Draft T C} {root : TableSpec T C} {calls : List (Call T C)}

/-- After accepted calls, one of them for a root, the nodes of a draft are one join tree that is
indexed exactly. The tables in the register are those asked for. A join of a table has on its parent
side that table or a join of it, and on its child side a table added below it or a join of that one.
The way up from a table ends at the topmost of its joins, and where a join is above, on the child
side of that join. -/
theorem indexed_of_calls (h : calls.foldlM answer empty = .ok draft)
    (hroot : .root root ∈ calls) :
    (∃ top, draft.Indexed top) ∧
    (∀ t, (draft.tables.lookup t).isSome ↔
      t = root.table ∨ ∃ addition, .child addition ∈ calls ∧ addition.spec.table = t) ∧
    (∀ (join parent child : NodeId) (multiplicity : Multiplicity) (owner : T),
      draft.nodes[join]? = some (.join parent child multiplicity owner) →
        draft.StandsFor owner parent ∧ ∃ addition, .child addition ∈ calls ∧
          addition.parent = owner ∧ draft.StandsFor addition.spec.table child) ∧
    ∀ t node, draft.tables.lookup t = some node →
      draft.ClimbEndsAt t node (draft.attachmentPoint t node) := by
  obtain ⟨additions, rfl, hassemble⟩ := exists_additions_of_calls h hroot
  obtain ⟨tree, hholds, htree, -⟩ := assemble_holds hassemble
  refine ⟨indexed_of_assemble hassemble, fun t => ?_, ?_,
    fun t node ht => hholds.climbEndsAt ht⟩
  · rw [hholds.registered, htree, JoinTree.tables,
      ((specs_of_assemble hassemble).map TableSpec.table).mem_iff]
    simp
  · intro join parent child multiplicity owner hjoin
    obtain ⟨hparent, left, right, hmem, hchild⟩ := hholds.exists_sides hjoin
    rw [htree] at hmem
    obtain ⟨addition, ha, howner, hspec⟩ := AggregateTree.exists_addition hmem
    exact ⟨hparent, addition, by simp [ha], howner, hspec ▸ hchild⟩

/-- A root with a child and a grandchild, and a second child and grandchild added late. -/
theorem indexed_of_calls_late :
    let root : TableSpec Nat Nat := { table := 0, id := some 10 }
    let additions : List (Addition Nat Nat) :=
      [⟨0, .multiple, { table := 1, id := some 11 }⟩, ⟨1, .single, { table := 2 }⟩,
        ⟨0, .multiple, { table := 3 }⟩, ⟨1, .multiple, { table := 4, key := some 14 }⟩]
    let calls : List (Call Nat Nat) := .root root :: additions.map .child
    ∃ draft, calls.foldlM answer (empty : Draft Nat Nat) = .ok draft ∧ .root root ∈ calls ∧
      (∃ top, draft.Indexed top) ∧
      (∀ t, (draft.tables.lookup t).isSome ↔
        t = root.table ∨ ∃ addition, .child addition ∈ calls ∧ addition.spec.table = t) ∧
      (∀ (join parent child : NodeId) (multiplicity : Multiplicity) (owner : Nat),
        draft.nodes[join]? = some (.join parent child multiplicity owner) →
          draft.StandsFor owner parent ∧ ∃ addition, .child addition ∈ calls ∧
            addition.parent = owner ∧ draft.StandsFor addition.spec.table child) ∧
      ∀ t node, draft.tables.lookup t = some node →
        draft.ClimbEndsAt t node (draft.attachmentPoint t node) := by
  intro root additions calls
  obtain ⟨draft, hassemble⟩ : ∃ draft, assemble root additions = .ok draft :=
    exists_assemble_iff.mpr
      ⟨by simp [additions, root, Addition.Attachable], fun _ _ _ => rfl⟩
  have h : calls.foldlM answer (empty : Draft Nat Nat) = .ok draft :=
    (foldlM_answer root additions).trans hassemble
  have hroot : .root root ∈ calls := List.mem_cons_self
  exact ⟨draft, h, hroot, indexed_of_calls h hroot⟩

end Calls

end Draft

end FlatAggregate
