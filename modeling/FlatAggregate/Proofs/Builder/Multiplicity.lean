import FlatAggregate.Proofs.Builder.Calls
import FlatAggregate.Proofs.Lowering.Renaming
import FlatAggregate.Proofs.Plan.Multiplicity

/-!
# Building without multiplicities

A draft, the join tree that it holds and the parts of its plan have uniform counterparts, with the
same multiplicity at all joins. Each step from the calls to the plan takes uniform things to uniform
things, and accepts or refuses them alike (`Draft.foldlM_answer_uniform`, `Draft.plan_uniform`). So
what is built from calls that differ only in multiplicities differs in them alone.

`uniform` stands for this change in calls, drafts, join trees and parts. A uniform thing forgets the
multiplicities and nothing else, so equal uniform things are equal up to multiplicities.
-/

namespace FlatAggregate

theorem map_modify {α β : Type} {f : α → β} {g : α → α} {g' : β → β}
    (h : ∀ a, f (g a) = g' (f a)) (entries : Array α) (i : Nat) :
    (entries.modify i g).map f = (entries.map f).modify i g' := by
  refine Array.ext_getElem? fun j => ?_
  rw [Array.getElem?_map, Array.getElem?_modify, Array.getElem?_modify, Array.getElem?_map]
  split
  · rw [Option.map_map, Option.map_map]
    exact congrArg (Option.map · entries[j]?) (funext h)
  · rfl

theorem foldlM_map_eq {E α β γ δ : Type} {f : β → α → Except E β} {f' : δ → γ → Except E δ}
    {g : α → γ} {h : β → δ} (hf : ∀ b a, f' (h b) (g a) = (f b a).map h) (items : List α) (b : β) :
    (items.map g).foldlM f' (h b) = (items.foldlM f b).map h := by
  induction items generalizing b with
  | nil => rfl
  | cons item rest ih =>
      rw [List.map_cons, List.foldlM_cons, List.foldlM_cons, hf]
      exact map_bind_eq ih

variable {T C : Type} (m : Multiplicity)

def Addition.uniform (addition : Addition T C) : Addition T C :=
  { addition with multiplicity := m }

def Draft.Call.uniform : Draft.Call T C → Draft.Call T C
  | .root spec => .root spec
  | .child addition => .child (addition.uniform m)

namespace DraftNode

def uniform : DraftNode T C → DraftNode T C
  | table spec => table spec
  | join parent child _ owner => join parent child m owner

@[simp] theorem owner_uniform (node : DraftNode T C) : (node.uniform m).owner = node.owner := by
  cases node <;> rfl

theorem lacksIdentity_uniform (node : DraftNode T C) :
    (node.uniform m).lacksIdentity = node.lacksIdentity := by
  cases node <;> rfl

theorem replaceOperand_uniform (old new : NodeId) (node : DraftNode T C) :
    (node.replaceOperand old new).uniform m = (node.uniform m).replaceOperand old new := by
  cases node with
  | table spec => rfl
  | join parent child multiplicity owner =>
      by_cases hchild : child = old
      · simp only [replaceOperand, uniform, if_pos hchild]
      · by_cases hparent : parent = old
        · simp only [replaceOperand, uniform, if_neg hchild, if_pos hparent]
        · simp only [replaceOperand, uniform, if_neg hchild, if_neg hparent]

end DraftNode

namespace Draft

def uniform (draft : Draft T C) : Draft T C :=
  { draft with nodes := draft.nodes.map (DraftNode.uniform m) }

variable (draft : Draft T C)

@[simp] theorem uniform_empty : (empty : Draft T C).uniform m = empty := by
  simp [uniform, empty]

@[simp] theorem getElem?_nodes_uniform (node : NodeId) :
    (draft.uniform m).nodes[node]? = draft.nodes[node]?.map (DraftNode.uniform m) :=
  Array.getElem?_map

@[simp] theorem size_nodes_uniform : (draft.uniform m).nodes.size = draft.nodes.size :=
  Array.size_map

@[simp] theorem owner?_uniform (node : NodeId) :
    (draft.uniform m).owner? node = draft.owner? node := by
  rw [owner?, owner?, getElem?_nodes_uniform, Option.map_map]
  exact congrArg (Option.map · draft.nodes[node]?) (funext (DraftNode.owner_uniform m))

theorem pushTable_uniform (spec : TableSpec T C) :
    (draft.uniform m).pushTable spec =
      ((draft.pushTable spec).1.uniform m, (draft.pushTable spec).2) := by
  simp [pushTable, push, uniform, DraftNode.uniform]

theorem addRoot_uniform [ToString T] (spec : TableSpec T C) :
    (draft.uniform m).addRoot spec = (draft.addRoot spec).map (uniform m) := by
  rw [addRoot, addRoot, show (draft.uniform m).rootTable = draft.rootTable from rfl]
  cases draft.rootTable with
  | some node => simp only [owner?_uniform, Except.map]
  | none =>
      simp only [pushTable_uniform]
      rfl

section Grafting

variable [DecidableEq T] (parent : T)

theorem climb_uniform (steps : Nat) (node : NodeId) :
    (draft.uniform m).climb parent steps node = draft.climb parent steps node := by
  induction steps generalizing node with
  | zero => rfl
  | succ steps ih =>
      rw [climb, climb, show (draft.uniform m).joinAbove node = draft.joinAbove node from rfl]
      simp only [owner?_uniform, ih]

theorem attachmentPoint_uniform (node : NodeId) :
    (draft.uniform m).attachmentPoint parent node = draft.attachmentPoint parent node := by
  rw [attachmentPoint, attachmentPoint, climb_uniform, size_nodes_uniform]

theorem graft_uniform (node : NodeId) (multiplicity : Multiplicity) (spec : TableSpec T C) :
    (draft.uniform m).graft parent node m spec =
      (draft.graft parent node multiplicity spec).uniform m := by
  rw [graft, graft, attachmentPoint_uniform]
  simp only [show (draft.uniform m).joinAbove = draft.joinAbove from rfl]
  cases draft.joinAbove (draft.attachmentPoint parent node) with
  | none => simp [pushTable, push, uniform, DraftNode.uniform]
  | some outer =>
      simp [pushTable, push, uniform, DraftNode.uniform,
        map_modify (DraftNode.replaceOperand_uniform m _ _)]

end Grafting

section Calls

variable [DecidableEq T] [ToString T]

theorem addChild_uniform (parent : T) (multiplicity : Multiplicity) (spec : TableSpec T C) :
    (draft.uniform m).addChild parent m spec =
      (draft.addChild parent multiplicity spec).map (uniform m) := by
  have hany : ∀ node : Option (DraftNode T C),
      (node.map (DraftNode.uniform m)).any DraftNode.lacksIdentity =
        node.any DraftNode.lacksIdentity := by
    rintro (_ | node)
    · rfl
    · exact DraftNode.lacksIdentity_uniform m node
  rw [addChild, addChild, show (draft.uniform m).rootTable = draft.rootTable from rfl,
    show (draft.uniform m).tables = draft.tables from rfl]
  cases draft.rootTable with
  | none => rfl
  | some rootTable =>
      cases draft.tables.lookup parent with
      | none => rfl
      | some node =>
          simp only [getElem?_nodes_uniform, hany, graft_uniform m draft parent node multiplicity]
          split
          · rfl
          · split <;> rfl

/-- A call is accepted or refused whatever its multiplicity. -/
theorem answer_uniform (call : Call T C) :
    (draft.uniform m).answer (call.uniform m) = (draft.answer call).map (uniform m) := by
  cases call with
  | root spec => exact addRoot_uniform m draft spec
  | child addition =>
      exact addChild_uniform m draft addition.parent addition.multiplicity addition.spec

theorem foldlM_answer_uniform (calls : List (Call T C)) :
    (calls.map (Call.uniform m)).foldlM answer (draft.uniform m) =
      (calls.foldlM answer draft).map (uniform m) :=
  foldlM_map_eq (fun draft call => answer_uniform m draft call) calls draft

end Calls

end Draft

namespace JoinTree

def uniform : JoinTree T C → JoinTree T C
  | table spec => .table spec
  | join parent child _ owner => .join parent.uniform child.uniform m owner

end JoinTree

namespace Draft

theorem treeAt_uniform (draft : Draft T C) (depth : Nat) (node : NodeId) :
    (draft.uniform m).treeAt depth node = (draft.treeAt depth node).map (JoinTree.uniform m) := by
  induction depth generalizing node with
  | zero => rfl
  | succ depth ih =>
      rw [treeAt, treeAt, getElem?_nodes_uniform]
      rcases draft.nodes[node]? with _ | (spec | ⟨parent, child, multiplicity, owner⟩)
      · rfl
      · rfl
      · simp only [Option.map_some, DraftNode.uniform, ih]
        cases draft.treeAt depth parent with
        | none => rfl
        | some left => cases draft.treeAt depth child <;> rfl

theorem tree?_uniform (draft : Draft T C) :
    (draft.uniform m).tree? = draft.tree?.map (JoinTree.uniform m) := by
  rw [tree?, tree?, size_nodes_uniform, show (draft.uniform m).root = draft.root from rfl]
  cases draft.root with
  | none => rfl
  | some root => exact treeAt_uniform m draft _ root

end Draft

namespace PlanParts

def uniform (parts : PlanParts T C) : PlanParts T C :=
  { parts with selects := parts.selects.map (PlanSelect.uniform m) }

variable (parts : PlanParts T C)

theorem addScan_uniform (spec : TableSpec T C) (incoming : List ColumnId) :
    (parts.uniform m).addScan spec incoming =
      ((parts.addScan spec incoming).1.uniform m, (parts.addScan spec incoming).2) := by
  simp [addScan, addColumns, addColumn, addSelect, uniform, PlanSelect.uniform]

theorem addView_uniform (scan : Operand) :
    (parts.uniform m).addView scan =
      ((parts.addView scan).1.uniform m, (parts.addView scan).2) := by
  simp [addView, addColumn, addSelect, uniform, PlanSelect.uniform]

theorem addJoin_uniform (parent child : Operand) (multiplicity : Multiplicity) :
    (parts.uniform m).addJoin parent child m =
      ((parts.addJoin parent child multiplicity).1.uniform m,
        (parts.addJoin parent child multiplicity).2) := by
  simp [addJoin, addColumns, addColumn, addSelect, uniform, PlanSelect.uniform]

end PlanParts

section Plans

variable [ToString T]

theorem JoinTree.build_uniform (tree : JoinTree T C) (parts : PlanParts T C)
    (incoming : List ColumnId) :
    (tree.uniform m).build (parts.uniform m) incoming =
      (tree.build parts incoming).map fun built => (built.1.uniform m, built.2) := by
  induction tree generalizing parts incoming with
  | table spec => exact congrArg Except.ok (PlanParts.addScan_uniform m parts spec incoming)
  | join parent child multiplicity owner ihp ihc =>
      rw [uniform, build, build, ihp]
      refine map_bind_eq ?_
      rintro ⟨parts, above⟩
      dsimp only
      split
      · rfl
      · cases child with
        | table spec =>
            simp only [uniform, PlanParts.addScan_uniform, PlanParts.addView_uniform]
            exact congrArg Except.ok (PlanParts.addJoin_uniform m _ above _ multiplicity)
        | join left right inner innerOwner =>
            have hchild := ihc parts above.id
            rw [uniform] at hchild ⊢
            dsimp only
            rw [hchild]
            refine map_bind_eq ?_
            rintro ⟨parts, below⟩
            exact congrArg Except.ok (PlanParts.addJoin_uniform m parts above below multiplicity)

theorem JoinTree.plan_uniform (tree : JoinTree T C) :
    (tree.uniform m).plan = tree.plan.map (Plan.uniform m) := by
  have hempty : PlanParts.uniform m ({} : PlanParts T C) = {} := by simp [PlanParts.uniform]
  have hbuild := build_uniform m tree {} []
  rw [hempty] at hbuild
  rw [plan, plan, hbuild]
  exact map_bind_eq fun _ => rfl

theorem Draft.plan_uniform (draft : Draft T C) :
    (draft.uniform m).plan = draft.plan.map (Plan.uniform m) := by
  rw [plan, plan, tree?_uniform]
  cases draft.tree? with
  | none => rfl
  | some tree => exact tree.plan_uniform m

end Plans

end FlatAggregate
