import FlatAggregate.Proofs.Builder.Invariant

/-!
# Aggregate trees

An aggregate tree has every table with the tables below it, siblings in the order in which they were
added. Its join tree is defined by recursion: the joins of a table are stacked above its leaf, one
per child, first child first.

A draft is assembled from a root and further tables, each added below one that is there. Whatever
the order of the additions for different parents, the draft holds the join tree of its aggregate
tree (`assemble_holds`): a late addition lands inside the branches that are joined already, where
the recursion would have put it at once.

An `Addition` is a table with the table that it is added below. `AggregateTree.ofAdditions` finds
the branches of a root among the additions, and `AggregateTree.insert` adds one more table as the
last child of its parent. To insert into an aggregate tree is to attach in its join tree
(`AggregateTree.joinTree_insert`), which is the step of the induction over the additions.
-/

namespace FlatAggregate

variable {T C : Type}

structure Addition (T C : Type) where
  parent : T
  multiplicity : Multiplicity
  spec : TableSpec T C
  deriving DecidableEq

mutual

structure AggregateTree (T C : Type) where
  spec : TableSpec T C
  branches : List (AggregateBranch T C)

structure AggregateBranch (T C : Type) where
  multiplicity : Multiplicity
  tree : AggregateTree T C

end

mutual

/-- The join tree of an aggregate tree: the leaf of its table, joined with every branch in turn. -/
def AggregateTree.joinTree : AggregateTree T C → JoinTree T C
  | ⟨spec, branches⟩ => AggregateBranch.joinAll spec.table (.table spec) branches

def AggregateBranch.joinAll (owner : T) (soFar : JoinTree T C) :
    List (AggregateBranch T C) → JoinTree T C
  | [] => soFar
  | ⟨multiplicity, child⟩ :: rest =>
    AggregateBranch.joinAll owner (.join soFar child.joinTree multiplicity owner) rest

end

section Additions

variable [DecidableEq T]

/-- The branches below `table`. All that is below a child is added after it. -/
def AggregateBranch.ofAdditions (table : T) : List (Addition T C) → List (AggregateBranch T C)
  | [] => []
  | ⟨parent, multiplicity, spec⟩ :: rest =>
    if parent = table then
      ⟨multiplicity, ⟨spec, AggregateBranch.ofAdditions spec.table rest⟩⟩ ::
        AggregateBranch.ofAdditions table rest
    else AggregateBranch.ofAdditions table rest

def AggregateTree.ofAdditions (root : TableSpec T C) (additions : List (Addition T C)) :
    AggregateTree T C :=
  ⟨root, AggregateBranch.ofAdditions root.table additions⟩

mutual

/-- Adds one more table, as the last child of its parent. -/
def AggregateTree.insert (addition : Addition T C) : AggregateTree T C → AggregateTree T C
  | ⟨spec, branches⟩ =>
    ⟨spec, AggregateBranch.insertAll addition branches ++
      if addition.parent = spec.table then [⟨addition.multiplicity, ⟨addition.spec, []⟩⟩] else []⟩

def AggregateBranch.insertAll (addition : Addition T C) :
    List (AggregateBranch T C) → List (AggregateBranch T C)
  | [] => []
  | ⟨multiplicity, child⟩ :: rest =>
    ⟨multiplicity, child.insert addition⟩ :: AggregateBranch.insertAll addition rest

end

theorem AggregateBranch.ofAdditions_append_singleton (table : T) (additions : List (Addition T C))
    (addition : Addition T C) :
    AggregateBranch.ofAdditions table (additions ++ [addition]) =
      AggregateBranch.insertAll addition (AggregateBranch.ofAdditions table additions) ++
        if addition.parent = table then [⟨addition.multiplicity, ⟨addition.spec, []⟩⟩] else [] := by
  induction additions generalizing table with
  | nil =>
      rw [List.nil_append, ofAdditions, ofAdditions, ofAdditions, ofAdditions, insertAll,
        List.nil_append]
  | cons first rest ih =>
      rw [List.cons_append, ofAdditions, ofAdditions, ih table, ih first.spec.table]
      split
      · rw [insertAll, AggregateTree.insert, List.cons_append]
      · rfl

theorem AggregateTree.ofAdditions_append_singleton (root : TableSpec T C)
    (additions : List (Addition T C)) (addition : Addition T C) :
    AggregateTree.ofAdditions root (additions ++ [addition]) =
      (AggregateTree.ofAdditions root additions).insert addition := by
  rw [ofAdditions, AggregateBranch.ofAdditions_append_singleton, ofAdditions, insert]

end Additions

section JoinAll

variable (owner : T)

theorem AggregateBranch.joinAll_cons (soFar : JoinTree T C) (branch : AggregateBranch T C)
    (rest : List (AggregateBranch T C)) :
    AggregateBranch.joinAll owner soFar (branch :: rest) =
      AggregateBranch.joinAll owner
        (.join soFar branch.tree.joinTree branch.multiplicity owner) rest := by
  obtain ⟨multiplicity, child⟩ := branch
  rw [joinAll]

theorem AggregateBranch.tables_joinAll (soFar : JoinTree T C)
    (branches : List (AggregateBranch T C)) :
    (AggregateBranch.joinAll owner soFar branches).tables =
      soFar.tables ++ branches.flatMap fun branch => branch.tree.joinTree.tables := by
  induction branches generalizing soFar with
  | nil => rw [joinAll, List.flatMap_nil, List.append_nil]
  | cons branch rest ih =>
      rw [joinAll_cons, ih, JoinTree.tables_join, List.flatMap_cons, List.append_assoc]

theorem AggregateBranch.owner_joinAll (soFar : JoinTree T C) (h : soFar.owner = owner)
    (branches : List (AggregateBranch T C)) :
    (AggregateBranch.joinAll owner soFar branches).owner = owner := by
  induction branches generalizing soFar with
  | nil => exact h
  | cons branch rest ih =>
      rw [joinAll_cons]
      exact ih _ rfl

theorem AggregateBranch.joinAll_append_singleton (soFar : JoinTree T C)
    (branches : List (AggregateBranch T C)) (multiplicity : Multiplicity)
    (tree : AggregateTree T C) :
    AggregateBranch.joinAll owner soFar (branches ++ [⟨multiplicity, tree⟩]) =
      .join (AggregateBranch.joinAll owner soFar branches) tree.joinTree multiplicity owner := by
  induction branches generalizing soFar with
  | nil => rfl
  | cons branch rest ih =>
      rw [List.cons_append, joinAll_cons, joinAll_cons]
      exact ih _

end JoinAll

mutual

theorem AggregateTree.spined_joinTree : (tree : AggregateTree T C) → tree.joinTree.Spined
  | ⟨spec, branches⟩ => by
    rw [AggregateTree.joinTree]
    exact AggregateBranch.spined_joinAll (.table spec) rfl trivial branches

theorem AggregateBranch.spined_joinAll {owner : T} (soFar : JoinTree T C)
    (ho : soFar.owner = owner) (hs : soFar.Spined) :
    (branches : List (AggregateBranch T C)) →
      (AggregateBranch.joinAll owner soFar branches).Spined
  | [] => hs
  | ⟨m, child⟩ :: rest => by
    have hjoin : (JoinTree.join soFar child.joinTree m owner).Spined :=
      ⟨ho, hs, child.spined_joinTree⟩
    rw [AggregateBranch.joinAll]
    exact AggregateBranch.spined_joinAll _ rfl hjoin rest

end

section Insert

variable [DecidableEq T] (addition : Addition T C)

mutual

theorem AggregateTree.insert_of_not_mem : (tree : AggregateTree T C) →
    addition.parent ∉ tree.joinTree.tables → tree.insert addition = tree
  | ⟨spec, branches⟩, h => by
    rw [AggregateTree.joinTree, AggregateBranch.tables_joinAll, List.mem_append, not_or] at h
    have hne : addition.parent ≠ spec.table := fun e => h.1 (by simp [e])
    rw [AggregateTree.insert, if_neg hne, List.append_nil,
      AggregateBranch.insertAll_of_not_mem branches h.2]

theorem AggregateBranch.insertAll_of_not_mem : (branches : List (AggregateBranch T C)) →
    (addition.parent ∉ branches.flatMap fun branch => branch.tree.joinTree.tables) →
      AggregateBranch.insertAll addition branches = branches
  | [], _ => rfl
  | ⟨m, child⟩ :: rest, h => by
    rw [List.flatMap_cons, List.mem_append, not_or] at h
    rw [AggregateBranch.insertAll, child.insert_of_not_mem h.1,
      AggregateBranch.insertAll_of_not_mem rest h.2]

end

mutual

theorem AggregateTree.joinTree_insert : (tree : AggregateTree T C) →
    tree.joinTree.tables.Nodup →
      (tree.insert addition).joinTree =
        tree.joinTree.attach addition.parent addition.multiplicity addition.spec
  | ⟨spec, branches⟩, hn => by
    rw [AggregateTree.joinTree, AggregateBranch.tables_joinAll, JoinTree.tables_table] at hn
    rw [AggregateTree.insert, AggregateTree.joinTree, AggregateTree.joinTree]
    by_cases h : addition.parent = spec.table
    · have hbranches : addition.parent ∉
          branches.flatMap fun branch => branch.tree.joinTree.tables := by
        rw [h]
        exact (List.nodup_cons.mp hn).1
      have howner : (AggregateBranch.joinAll spec.table (.table spec) branches).owner =
          addition.parent :=
        (AggregateBranch.owner_joinAll spec.table (.table spec) rfl branches).trans h.symm
      rw [if_pos h, AggregateBranch.insertAll_of_not_mem addition branches hbranches,
        AggregateBranch.joinAll_append_singleton, JoinTree.attach_of_owner _ _ howner, h]
      rfl
    · rw [if_neg h, List.append_nil,
        AggregateBranch.attach_joinAll _ (.table spec) (fun e => h e.symm) branches
          hn.of_append_right,
        JoinTree.attach_table_of_ne _ _ (fun e => h e.symm)]

/-- A table below another owner is attached in what is joined so far and in every branch. -/
theorem AggregateBranch.attach_joinAll (owner : T) (soFar : JoinTree T C)
    (hne : owner ≠ addition.parent) :
    (branches : List (AggregateBranch T C)) →
    (branches.flatMap fun branch => branch.tree.joinTree.tables).Nodup →
      (AggregateBranch.joinAll owner soFar branches).attach addition.parent
          addition.multiplicity addition.spec =
        AggregateBranch.joinAll owner
          (soFar.attach addition.parent addition.multiplicity addition.spec)
          (AggregateBranch.insertAll addition branches)
  | [], _ => rfl
  | ⟨m, child⟩ :: rest, hn => by
    rw [List.flatMap_cons] at hn
    rw [AggregateBranch.joinAll, AggregateBranch.insertAll, AggregateBranch.joinAll,
      AggregateBranch.attach_joinAll owner _ hne rest hn.of_append_right,
      JoinTree.attach_join_of_ne _ _ hne, child.joinTree_insert hn.of_append_left]

end

end Insert

end FlatAggregate
