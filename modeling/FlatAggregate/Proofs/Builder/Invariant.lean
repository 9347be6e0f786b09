import FlatAggregate.Proofs.Builder.Grafting

/-!
# The invariant of a draft

`Draft.Holds` says that a draft with a root is exactly one spined join tree: its nodes are the nodes
of the tree, its index has an entry for every operand and for nothing else, its register has the
tables of the tree, and the tree can be read back. `addRoot` establishes it. Under it the checks of
`addChild` read off the join tree (`Holds.addChild_eq`), and an accepted call attaches the new table
(`Holds.graft`).
-/

namespace FlatAggregate

variable {T C : Type} [DecidableEq T]

structure Draft.Holds (draft : Draft T C) (tree : NodeTree T C) : Prop where
  root : draft.root = some tree.node
  held : tree.HeldBy draft none
  nodup : tree.nodes.Nodup
  mem_nodes : ∀ n : Nat, n ∈ tree.nodes ↔ n < draft.nodes.size
  fresh : ∀ n, draft.nodes.size ≤ n → draft.joinAbove n = none
  registered : ∀ t, (draft.tables.lookup t).isSome ↔ t ∈ tree.tree.tables
  rootTable : draft.rootTable = draft.tables.lookup tree.tree.owner
  spined : tree.tree.Spined
  tables_nodup : tree.tree.tables.Nodup
  /-- Only a root that can tell its rows apart gets children. -/
  identity : (∃ spec, tree.tree = .table spec) ∨ tree.tree.rootSpec.hasIdentity

theorem lookup_cons_of_ne {α β : Type} [DecidableEq α] {k a : α} {b : β} {entries : List (α × β)}
    (h : k ≠ a) : ((a, b) :: entries).lookup k = entries.lookup k := by
  rw [List.lookup_cons, beq_false_of_ne h]

namespace Draft

variable {draft : Draft T C} {tree : NodeTree T C}

theorem Holds.tree?_eq (h : draft.Holds tree) : draft.tree? = some tree.tree := by
  rw [tree?, h.root]
  apply h.held.treeAt_eq_tree
  have hsub : tree.nodes.Subperm (List.range draft.nodes.size) :=
    List.subperm_of_subset h.nodup fun n hn => List.mem_range.mpr ((h.mem_nodes n).mp hn)
  simpa using hsub.length_le

theorem empty_addRoot [ToString T] (spec : TableSpec T C) :
    ∃ draft, (empty : Draft T C).addRoot spec = .ok draft ∧ draft.Holds (.table 0 spec) := by
  refine ⟨_, rfl, ?_⟩
  constructor
  · rfl
  · exact ⟨rfl, rfl, List.lookup_cons_self⟩
  · exact List.nodup_singleton 0
  · intro n
    simp [NodeTree.nodes, empty]
  · exact fun n _ => rfl
  · intro t
    simp only [empty, NodeTree.tree, JoinTree.tables_table, List.mem_singleton]
    by_cases ht : t = spec.table
    · simp [ht]
    · simp [lookup_cons_of_ne ht, ht]
  · exact List.lookup_cons_self.symm
  · trivial
  · exact List.nodup_singleton _
  · exact .inl ⟨spec, rfl⟩

theorem addRoot_of_holds [ToString T] (h : draft.Holds tree) (spec : TableSpec T C) :
    draft.addRoot spec = .error (.rootAlreadyDefined (toString tree.tree.rootSpec.table)) := by
  obtain ⟨node, leaf, hlookup, hnode, -, hleaf⟩ :=
    h.held.lookup_table (JoinTree.owner_mem_tables h.spined)
  rw [addRoot, h.rootTable, hlookup]
  simp [owner?, hnode, DraftNode.owner, hleaf, JoinTree.table_rootSpec h.spined]

/-- The way up from a registered table ends at the top of its spine. -/
theorem Holds.attachmentPoint_eq (h : draft.Holds tree) {t : T} {node : NodeId}
    (ht : draft.tables.lookup t = some node) : draft.attachmentPoint t node = tree.top t := by
  apply h.held.climb_eq_top h.spined
  · rw [← h.registered, ht, Option.isSome_some]
  · simp
  · exact ht
  · have hsub : tree.nodes.Subperm (List.range draft.nodes.size) :=
      List.subperm_of_subset h.nodup fun n hn => List.mem_range.mpr ((h.mem_nodes n).mp hn)
    simpa using hsub.length_le

section Graft

variable {parent : T} {node : NodeId} (multiplicity : Multiplicity) (spec : TableSpec T C)

theorem size_graft : (draft.graft parent node multiplicity spec).nodes.size =
    draft.nodes.size + 2 := by
  simp only [graft, pushTable, push]
  split <;> simp

theorem rootTable_graft :
    (draft.graft parent node multiplicity spec).rootTable = draft.rootTable := by
  simp only [graft, pushTable, push]
  split <;> rfl

theorem tables_graft : (draft.graft parent node multiplicity spec).tables =
    (spec.table, draft.nodes.size) :: draft.tables := by
  simp only [graft, pushTable, push]
  split <;> rfl

theorem root_graft : (draft.graft parent node multiplicity spec).root =
    if (draft.joinAbove (draft.attachmentPoint parent node)).isSome then draft.root
    else some (draft.nodes.size + 1) := by
  simp only [graft, pushTable, push, Array.size_push]
  cases draft.joinAbove (draft.attachmentPoint parent node) <;> rfl

theorem joinAbove_graft (hfresh : draft.joinAbove (draft.nodes.size + 1) = none)
    (hlt : draft.attachmentPoint parent node < draft.nodes.size) (n : NodeId) :
    (draft.graft parent node multiplicity spec).joinAbove n =
      if n = draft.nodes.size + 1 then draft.joinAbove (draft.attachmentPoint parent node)
      else if n = draft.nodes.size then some (draft.nodes.size + 1)
      else if n = draft.attachmentPoint parent node then some (draft.nodes.size + 1)
      else draft.joinAbove n := by
  have hentries : (draft.graft parent node multiplicity spec).joinsAbove =
      ((draft.joinAbove (draft.attachmentPoint parent node)).toList.map
        (draft.nodes.size + 1, ·)) ++
      (draft.nodes.size, draft.nodes.size + 1) ::
        (draft.attachmentPoint parent node, draft.nodes.size + 1) :: draft.joinsAbove := by
    simp only [graft, pushTable, push, Array.size_push]
    cases draft.joinAbove (draft.attachmentPoint parent node) <;> rfl
  rw [joinAbove, hentries]
  split_ifs with hjoin hchild hattachment
  · subst hjoin
    cases draft.joinAbove (draft.attachmentPoint parent node) with
    | some outer => exact List.lookup_cons_self
    | none =>
        rw [Option.toList_none, List.map_nil, List.nil_append,
          lookup_cons_of_ne (Nat.succ_ne_self _),
          lookup_cons_of_ne (Nat.ne_of_gt (Nat.lt_succ_of_lt hlt))]
        exact hfresh
  all_goals
    have hskip : (((draft.joinAbove (draft.attachmentPoint parent node)).toList.map
          (draft.nodes.size + 1, ·)) ++
        (draft.nodes.size, draft.nodes.size + 1) ::
          (draft.attachmentPoint parent node, draft.nodes.size + 1) :: draft.joinsAbove).lookup n =
        ((draft.nodes.size, draft.nodes.size + 1) ::
          (draft.attachmentPoint parent node, draft.nodes.size + 1) :: draft.joinsAbove).lookup
            n := by
      cases draft.joinAbove (draft.attachmentPoint parent node) with
      | some outer => exact lookup_cons_of_ne hjoin
      | none => rfl
    rw [hskip]
  · rw [hchild, List.lookup_cons_self]
  · rw [lookup_cons_of_ne hchild, hattachment, List.lookup_cons_self]
  · rw [lookup_cons_of_ne hchild, lookup_cons_of_ne hattachment]
    rfl

theorem nodes_graft (n : NodeId) : (draft.graft parent node multiplicity spec).nodes[n]? =
    let nodes := (draft.nodes.push (.table spec)).push
      (.join (draft.attachmentPoint parent node) draft.nodes.size multiplicity parent)
    if draft.joinAbove (draft.attachmentPoint parent node) = some n then
      nodes[n]?.map (.replaceOperand (draft.attachmentPoint parent node) (draft.nodes.size + 1))
    else nodes[n]? := by
  simp only [graft, pushTable, push, Array.size_push]
  cases draft.joinAbove (draft.attachmentPoint parent node) with
  | none => simp
  | some outer => simp [Array.getElem?_modify]

/-- A graft makes the changes of `Grafted`, at the node that the way up leads to. -/
theorem grafted_graft (hlt : draft.attachmentPoint parent node < draft.nodes.size)
    (hfresh : ∀ n, draft.nodes.size ≤ n → draft.joinAbove n = none)
    (hout : ∀ outer, draft.joinAbove (draft.attachmentPoint parent node) = some outer →
      outer < draft.nodes.size) :
    draft.Grafted (draft.graft parent node multiplicity spec)
      (draft.attachmentPoint parent node) multiplicity parent spec
      draft.nodes.size (draft.nodes.size + 1) := by
  have habove := joinAbove_graft multiplicity spec (hfresh _ (Nat.le_succ _)) hlt
  have hnew : ∀ n, draft.nodes.size ≤ n →
      draft.joinAbove (draft.attachmentPoint parent node) ≠ some n :=
    fun n hn e => absurd (hout n e) (Nat.not_lt_of_le hn)
  constructor
  · have hsize : draft.nodes.size ≠ (draft.nodes.push (.table spec)).size := by
      rw [Array.size_push]
      exact Nat.ne_of_lt (Nat.lt_succ_self _)
    rw [nodes_graft, if_neg (hnew _ (Nat.le_refl _)), Array.getElem?_push, if_neg hsize,
      Array.getElem?_push_size]
  · have hsize : (draft.nodes.push (.table spec)).size = draft.nodes.size + 1 := Array.size_push ..
    rw [nodes_graft, if_neg (hnew _ (Nat.le_succ _)), ← hsize, Array.getElem?_push_size]
  · intro outer he ho
    rw [nodes_graft, if_pos he]
    simp [Array.getElem?_push, Nat.ne_of_lt ho, Nat.ne_of_lt (Nat.lt_succ_of_lt ho)]
  · intro n hn hne
    rw [nodes_graft, if_neg hne]
    simp [Array.getElem?_push, Nat.ne_of_lt hn, Nat.ne_of_lt (Nat.lt_succ_of_lt hn)]
  · rw [habove]
    simp
  · rw [habove, if_pos rfl]
  · rw [habove]
    simp [Nat.ne_of_lt (Nat.lt_succ_of_lt hlt)]
  · intro n hc hj ha
    rw [habove, if_neg hj, if_neg hc, if_neg ha]
  · rw [tables_graft, List.lookup_cons_self]
  · intro t ht
    rw [tables_graft, lookup_cons_of_ne ht]

theorem Holds.graft (h : draft.Holds tree) (hp : draft.tables.lookup parent = some node)
    (hspec : spec.table ∉ tree.tree.tables)
    (hid : parent = tree.tree.owner → tree.tree.rootSpec.hasIdentity) :
    (draft.graft parent node multiplicity spec).Holds
      (tree.attach parent multiplicity spec draft.nodes.size (draft.nodes.size + 1)) := by
  have hmem : parent ∈ tree.tree.tables := by
    rw [← h.registered, hp, Option.isSome_some]
  have htop := h.attachmentPoint_eq hp
  have hlt : draft.attachmentPoint parent node < draft.nodes.size := by
    rw [htop, ← h.mem_nodes]
    exact NodeTree.top_mem_nodes parent tree
  have hout : ∀ outer, draft.joinAbove (draft.attachmentPoint parent node) = some outer →
      outer < draft.nodes.size := by
    intro outer he
    rcases h.held.joinAbove_mem ((h.mem_nodes _).mpr hlt) with hn | ⟨join, hj, hn⟩
    · exact absurd (he.symm.trans hn) (by simp)
    · obtain rfl : outer = join := Option.some.inj (he.symm.trans hn)
      exact (h.mem_nodes _).mp hj
  have g := grafted_graft multiplicity spec hlt h.fresh hout
  have hperm : (tree.attach parent multiplicity spec draft.nodes.size
      (draft.nodes.size + 1)).nodes.Perm
      ((draft.nodes.size + 1) :: draft.nodes.size :: tree.nodes) :=
    NodeTree.nodes_attach_perm h.spined h.tables_nodup hmem
  have htables : (tree.tree.attach parent multiplicity spec).tables.Perm
      (spec.table :: tree.tree.tables) :=
    (JoinTree.specs_attach_perm multiplicity spec h.spined h.tables_nodup hmem).map _
  constructor
  · -- the root moves up exactly when the spine of the parent reaches it
    rw [root_graft]
    by_cases ho : tree.tree.owner = parent
    · rw [htop, NodeTree.top_of_owner ho, h.held.joinAbove_node, NodeTree.attach_of_owner ho]
      rfl
    · obtain ⟨outer, -, he⟩ := h.held.joinAbove_top hmem ho
      rw [htop, he, NodeTree.node_attach_of_ne ho]
      exact h.root
  · rw [htop] at g
    exact h.held.attach g h.spined h.tables_nodup h.nodup (fun n hn => (h.mem_nodes n).mp hn)
      (Nat.le_refl _) (Nat.le_succ _) hspec hmem (by simp)
  · rw [hperm.nodup_iff]
    have hlast : draft.nodes.size ∉ tree.nodes := fun hm =>
      Nat.lt_irrefl _ ((h.mem_nodes _).mp hm)
    have hnext : draft.nodes.size + 1 ∉ tree.nodes := fun hm =>
      Nat.not_succ_lt_self ((h.mem_nodes _).mp hm)
    simp [h.nodup, hlast, hnext]
  · intro n
    rw [hperm.mem_iff, size_graft, List.mem_cons, List.mem_cons, h.mem_nodes]
    change n = draft.nodes.size + 1 ∨ n = draft.nodes.size ∨ n < draft.nodes.size ↔ _
    omega
  · intro n hn
    rw [size_graft] at hn
    have hne : n ≠ draft.nodes.size := by omega
    have hne' : n ≠ draft.nodes.size + 1 := by omega
    have hna : n ≠ draft.attachmentPoint parent node :=
      Nat.ne_of_gt (Nat.lt_of_lt_of_le hlt (Nat.le_trans (Nat.le_add_right _ 2) hn))
    rw [g.joinAbove_other n hne hne' hna, h.fresh n (by omega)]
  · intro t
    rw [NodeTree.tree_attach, htables.mem_iff, List.mem_cons, ← h.registered]
    by_cases ht : t = spec.table
    · simp [ht, g.lookup_spec]
    · simp [ht, g.lookup_other t ht]
  · have howner : tree.tree.owner ≠ spec.table := fun e =>
      hspec (e ▸ JoinTree.owner_mem_tables h.spined)
    rw [rootTable_graft, NodeTree.tree_attach, JoinTree.owner_attach, h.rootTable,
      g.lookup_other _ howner]
  · rw [NodeTree.tree_attach]
    exact JoinTree.spined_attach multiplicity spec h.spined
  · rw [NodeTree.tree_attach, htables.nodup_iff]
    exact List.nodup_cons.mpr ⟨hspec, h.tables_nodup⟩
  · rw [NodeTree.tree_attach, JoinTree.rootSpec_attach]
    right
    rcases h.identity with ⟨leaf, hleaf⟩ | hid'
    · apply hid
      rw [hleaf] at hmem ⊢
      exact List.mem_singleton.mp hmem
    · exact hid'

theorem Holds.addChild_eq [ToString T] (h : draft.Holds tree) (parent : T) :
    draft.addChild parent multiplicity spec =
      if parent ∉ tree.tree.tables then .error (.unknownTable (toString parent))
      else if spec.table ∈ tree.tree.tables then .error (.duplicateTable (toString spec.table))
      else if parent = tree.tree.owner ∧ ¬ tree.tree.rootSpec.hasIdentity then
        .error (.missingIdentity (toString parent))
      else .ok (draft.graft parent ((draft.tables.lookup parent).getD 0) multiplicity spec) := by
  obtain ⟨rootNode, rootLeaf, hroot, hrootNode, hrootMem, hrootTable⟩ :=
    h.held.lookup_table (JoinTree.owner_mem_tables h.spined)
  have hrootSpec : rootLeaf = tree.tree.rootSpec :=
    List.inj_on_of_nodup_map h.tables_nodup hrootMem tree.tree.rootSpec_mem_specs
      (hrootTable.trans (JoinTree.table_rootSpec h.spined).symm)
  rw [addChild, h.rootTable, hroot]
  by_cases hp : parent ∈ tree.tree.tables
  · obtain ⟨n, leaf, hn, hnode, -, hleaf⟩ := h.held.lookup_table hp
    have hiff : n = rootNode ↔ parent = tree.tree.owner := by
      constructor
      · rintro rfl
        have : leaf = rootLeaf := by simpa [hnode] using hrootNode
        rw [← hleaf, this, hrootTable]
      · rintro rfl
        exact Option.some.inj (hn.symm.trans hroot)
    have hcheck : (n = rootNode ∧ draft.nodes[n]?.any DraftNode.lacksIdentity = true) ↔
        (parent = tree.tree.owner ∧ ¬ tree.tree.rootSpec.hasIdentity) := by
      rw [← hiff]
      refine and_congr_right fun he => ?_
      rw [he, hrootNode, hrootSpec]
      simp [DraftNode.lacksIdentity]
    rw [hn, if_neg (not_not.mpr hp)]
    simp only [Option.getD_some, h.registered, hcheck]
  · have hn : draft.tables.lookup parent = none := by
      rw [← Option.not_isSome_iff_eq_none, h.registered]
      exact hp
    rw [hn, if_pos hp]

end Graft

end Draft

end FlatAggregate
