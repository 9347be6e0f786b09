import FlatAggregate.Plan.Construction
import Mathlib.Data.List.Basic

/-!
# What building a plan does

`Builds` is the construction as a relation, one rule per way in which a tree is added: a table on
the parent side stays a bare scan, a table on the child side gets a view, a join is added after both
its sides. Facts about built plans are inductions over it.

Parts only grow (`Builds.grows`), so what holds of an entry once holds in the finished plan. A tree
whose left-most table has an identity, or receives one, is never refused (`exists_builds`).

A tree is built for a `Side` of the join above it; the outermost tree counts as a parent side. Later
parts keep the entries of earlier ones (`PlanParts.Prefix`).
-/

namespace FlatAggregate

variable {T C : Type}

inductive Side where
  | parent
  | child
  deriving DecidableEq

/-- `before` is extended to `after` by a tree with the given incoming columns. -/
inductive Builds : Side → PlanParts T C → JoinTree T C → List ColumnId → PlanParts T C → Operand →
    Prop
  | scan (before : PlanParts T C) (spec : TableSpec T C) (incoming : List ColumnId) :
    Builds .parent before (.table spec) incoming
      (before.addScan spec incoming).1 (before.addScan spec incoming).2
  | view (before : PlanParts T C) (spec : TableSpec T C) (incoming : List ColumnId) :
    Builds .child before (.table spec) incoming
      ((before.addScan spec incoming).1.addView (before.addScan spec incoming).2).1
      ((before.addScan spec incoming).1.addView (before.addScan spec incoming).2).2
  | join {side : Side} {before middle last : PlanParts T C} {left right : JoinTree T C}
      {incoming : List ColumnId} {parent child : Operand} (multiplicity : Multiplicity) (owner : T)
      (hparent : Builds .parent before left incoming middle parent)
      (hid : parent.id ≠ [])
      (hchild : Builds .child middle right parent.id last child) :
    Builds side before (.join left right multiplicity owner) incoming
      (last.addJoin parent child multiplicity).1 (last.addJoin parent child multiplicity).2

structure PlanParts.Prefix (before after : PlanParts T C) : Prop where
  selects : ∀ {s : SelectId} {select}, before.selects[s]? = some select →
    after.selects[s]? = some select
  columns : ∀ {c : ColumnId} {column}, before.columns[c]? = some column →
    after.columns[c]? = some column

namespace PlanParts

theorem Prefix.refl (parts : PlanParts T C) : parts.Prefix parts := ⟨id, id⟩

theorem Prefix.trans {first second third : PlanParts T C} (h : first.Prefix second)
    (h' : second.Prefix third) : first.Prefix third :=
  ⟨fun hs => h'.selects (h.selects hs), fun hc => h'.columns (h.columns hc)⟩

variable (parts : PlanParts T C)

theorem prefix_addSelect (select : PlanSelect T) : parts.Prefix (parts.addSelect select).1 where
  selects := fun h => by
    obtain ⟨hlt, -⟩ := Array.getElem?_eq_some_iff.mp h
    rw [addSelect, Array.getElem?_push_lt hlt, ← h, Array.getElem?_eq_getElem hlt]
  columns := id

theorem prefix_addColumns (columns : List (PlanColumn C)) :
    parts.Prefix (parts.addColumns columns).1 where
  selects := id
  columns := fun h => by
    obtain ⟨hlt, -⟩ := Array.getElem?_eq_some_iff.mp h
    rw [addColumns, ← h, ← Array.getElem?_toList, ← Array.getElem?_toList,
      Array.toList_appendList, List.getElem?_append_left (by simpa using hlt)]

theorem prefix_addColumn (column : PlanColumn C) : parts.Prefix (parts.addColumn column).1 := by
  have h := parts.prefix_addColumns [column]
  rwa [addColumns_singleton] at h

theorem prefix_addScan (spec : TableSpec T C) (incoming : List ColumnId) :
    parts.Prefix (parts.addScan spec incoming).1 :=
  (prefix_addColumns _ _).trans <| (prefix_addColumns _ _).trans <|
    (prefix_addColumns _ _).trans <| (prefix_addColumns _ _).trans <|
    (prefix_addColumn _ _).trans (prefix_addSelect _ _)

theorem prefix_addView (scan : Operand) : parts.Prefix (parts.addView scan).1 :=
  (prefix_addColumn _ _).trans (prefix_addSelect _ _)

theorem prefix_addJoin (parent child : Operand) (multiplicity : Multiplicity) :
    parts.Prefix (parts.addJoin parent child multiplicity).1 :=
  (prefix_addColumns _ _).trans <| (prefix_addColumn _ _).trans <|
    (prefix_addColumns _ _).trans <| (prefix_addColumns _ _).trans <|
    (prefix_addColumns _ _).trans (prefix_addSelect _ _)

end PlanParts

theorem Builds.grows {side : Side} {before after : PlanParts T C} {tree : JoinTree T C}
    {incoming : List ColumnId} {operand : Operand}
    (h : Builds side before tree incoming after operand) : before.Prefix after := by
  induction h with
  | scan before spec incoming => exact before.prefix_addScan spec incoming
  | view before spec incoming =>
      exact (before.prefix_addScan spec incoming).trans (PlanParts.prefix_addView _ _)
  | join multiplicity owner _ _ _ ihp ihc =>
      exact (ihp.trans ihc).trans (PlanParts.prefix_addJoin _ _ _ _)

/-- The id columns of a new scan: its id, or the foreign keys and the key. -/
theorem PlanParts.id_addScan_ne_nil (parts : PlanParts T C) (spec : TableSpec T C)
    (incoming : List ColumnId) (h : incoming ≠ [] ∨ spec.hasIdentity) :
    (parts.addScan spec incoming).2.id ≠ [] := by
  simp only [addScan, addColumns, addColumn, addSelect, TableScan.idColumns, TableSpec.hasIdentity]
    at h ⊢
  cases hid : spec.id with
  | some id => simp
  | none =>
      have hlength : incoming ≠ [] ∨ spec.key.isSome := by simpa [hid] using h
      cases hkey : spec.key with
      | some key => simp
      | none => simpa [hkey] using hlength

theorem PlanParts.id_addJoin_ne_nil (parts : PlanParts T C) (parent child : Operand)
    (multiplicity : Multiplicity) (h : parent.id ≠ []) :
    (parts.addJoin parent child multiplicity).2.id ≠ [] := by
  simp only [addJoin, addColumns, addColumn, addSelect]
  simpa [List.range'_eq_nil_iff] using h

section Result

variable [ToString T]

def JoinTree.buildChild (parts : PlanParts T C) (incoming : List ColumnId) :
    JoinTree T C → Except JoinTreeError (PlanParts T C × Operand)
  | .table spec => .ok ((parts.addScan spec incoming).1.addView (parts.addScan spec incoming).2)
  | .join parent child multiplicity owner =>
    (JoinTree.join parent child multiplicity owner).build parts incoming

theorem JoinTree.build_join {parts middle last : PlanParts T C} {incoming : List ColumnId}
    {left right : JoinTree T C} {parent child : Operand} (multiplicity : Multiplicity) (owner : T)
    (hparent : left.build parts incoming = .ok (middle, parent)) (hid : parent.id ≠ [])
    (hchild : right.buildChild middle parent.id = .ok (last, child)) :
    (JoinTree.join left right multiplicity owner).build parts incoming =
      .ok (last.addJoin parent child multiplicity) := by
  have hempty : ¬ parent.id.isEmpty := by simpa using hid
  rw [build, hparent]
  cases right with
  | table spec =>
      obtain ⟨rfl, rfl⟩ := Prod.mk.inj (Except.ok.inj hchild)
      simp only [bind, Except.bind, hempty]
      rfl
  | join left' right' m o =>
      have hright : (join left' right' m o).build middle parent.id = .ok (last, child) := hchild
      simp only [bind, Except.bind, hempty, hright]
      rfl

/-- A tree whose left-most table has an identity of its own, or gets one from above, is built on
either side of a join, and has id columns. -/
theorem JoinTree.exists_builds (tree : JoinTree T C) (before : PlanParts T C)
    (incoming : List ColumnId) (h : incoming ≠ [] ∨ tree.rootSpec.hasIdentity) :
    (∃ after operand, tree.build before incoming = .ok (after, operand) ∧
      Builds .parent before tree incoming after operand ∧ operand.id ≠ []) ∧
    (∃ after operand, tree.buildChild before incoming = .ok (after, operand) ∧
      Builds .child before tree incoming after operand) := by
  induction tree generalizing before incoming with
  | table spec =>
      have hid := before.id_addScan_ne_nil spec incoming h
      exact ⟨⟨_, _, rfl, .scan before spec incoming, hid⟩,
        ⟨_, _, rfl, .view before spec incoming⟩⟩
  | join left right multiplicity owner ihl ihr =>
      obtain ⟨⟨middle, parent, hl, hlb, hid⟩, -⟩ := ihl before incoming h
      obtain ⟨-, last, child, hr, hrb⟩ := ihr middle parent.id (.inl hid)
      have hbuild := build_join multiplicity owner hl hid hr
      exact ⟨⟨_, _, hbuild, .join multiplicity owner hlb hid hrb,
          last.id_addJoin_ne_nil parent child multiplicity hid⟩,
        ⟨_, _, hbuild, .join multiplicity owner hlb hid hrb⟩⟩

/-- A tree that is a single table, or whose left-most table has an identity, has a plan. -/
theorem JoinTree.exists_plan {tree : JoinTree T C}
    (h : (∃ spec, tree = .table spec) ∨ tree.rootSpec.hasIdentity) :
    ∃ parts top, Builds .parent {} tree [] parts top ∧
      tree.plan = .ok ⟨parts.selects, parts.columns, top.select⟩ := by
  rcases h with ⟨spec, rfl⟩ | hid
  · exact ⟨_, _, .scan {} spec [], rfl⟩
  · obtain ⟨⟨parts, top, hbuild, hbuilds, -⟩, -⟩ := tree.exists_builds {} [] (.inr hid)
    refine ⟨parts, top, hbuilds, ?_⟩
    rw [plan, hbuild]
    rfl

end Result

end FlatAggregate
