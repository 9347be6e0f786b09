import FlatAggregate.Proofs.Statement.Resolution

/-!
# Where windows stand

A window is evaluated over the rows of a whole level, so SQL takes it as an item of a select list
only: not in a join condition, and not within another window or call. A level with windows on top
(`Statement.WindowsOnTop`) has items of four forms, the largest of which is a window over a list of
calls. So its windows stand where SQL takes them, and its expressions have a bounded depth,
whatever the size of the statement.

`IsReference`, `IsAtom`, `IsGreatest` and `IsItem` are the forms, each made from the one before, and
`depth` counts the expressions on the longest way into one.
-/

namespace FlatAggregate

namespace Expr

inductive IsReference : Expr → Prop
  | property (source column : String) : IsReference (.property source column)

inductive IsAtom : Expr → Prop
  | reference {expr : Expr} (h : expr.IsReference) : IsAtom expr
  | one : IsAtom (.literal 1)

inductive IsGreatest : Expr → Prop
  | call {left right : Expr} (hleft : left.IsAtom) (hright : right.IsAtom) :
    IsGreatest (.call "GREATEST" [left, right])

/-- An item of a select list: a reference, the greatest of two atoms, the row number over a list of
references, or the maximum of a reference over a list of such greatest ones. -/
inductive IsItem : Expr → Prop
  | reference {expr : Expr} (h : expr.IsReference) : IsItem expr
  | greatest {expr : Expr} (h : expr.IsGreatest) : IsItem expr
  | rowNumber {keys : List Expr} (hkeys : ∀ key ∈ keys, key.IsReference) :
    IsItem (.window "ROW_NUMBER" [] keys)
  | maxOver {source : Expr} {keys : List Expr} (hsource : source.IsReference)
      (hkeys : ∀ key ∈ keys, key.IsGreatest) : IsItem (.window "MAX" [source] keys)

def operands : Expr → List Expr
  | .literal _ | .aliasRef _ | .property _ _ => []
  | .call _ args => args
  | .window _ args partitionBy => args ++ partitionBy
  | .operation _ operands => operands

mutual

def windowFree : Expr → Bool
  | .literal _ | .aliasRef _ | .property _ _ => true
  | .call _ args => allWindowFree args
  | .window _ _ _ => false
  | .operation _ operands => allWindowFree operands

def allWindowFree : List Expr → Bool
  | [] => true
  | expr :: rest => expr.windowFree && allWindowFree rest

end

mutual

def depth : Expr → Nat
  | .literal _ | .aliasRef _ | .property _ _ => 1
  | .call _ args => depths args + 1
  | .window _ args partitionBy => max (depths args) (depths partitionBy) + 1
  | .operation _ operands => depths operands + 1

def depths : List Expr → Nat
  | [] => 0
  | expr :: rest => max expr.depth (depths rest)

end

theorem depths_le {exprs : List Expr} {bound : Nat} (h : ∀ expr ∈ exprs, expr.depth ≤ bound) :
    depths exprs ≤ bound := by
  induction exprs with
  | nil => exact Nat.zero_le _
  | cons expr rest ih =>
      rw [depths]
      exact Nat.max_le.mpr ⟨h expr List.mem_cons_self,
        ih fun other ho => h other (List.mem_cons_of_mem _ ho)⟩

variable {expr : Expr}

theorem IsReference.windowFree (h : expr.IsReference) : expr.windowFree := by
  cases h
  rfl

theorem IsReference.depth_le (h : expr.IsReference) : expr.depth ≤ 1 := by
  cases h
  exact Nat.le_refl _

theorem IsAtom.windowFree (h : expr.IsAtom) : expr.windowFree := by
  cases h with
  | reference h => exact h.windowFree
  | one => rfl

theorem IsAtom.depth_le (h : expr.IsAtom) : expr.depth ≤ 1 := by
  cases h with
  | reference h => exact h.depth_le
  | one => exact Nat.le_refl _

theorem IsGreatest.windowFree (h : expr.IsGreatest) : expr.windowFree := by
  cases h with
  | call hleft hright => simp [Expr.windowFree, allWindowFree, hleft.windowFree, hright.windowFree]

theorem IsGreatest.depth_le (h : expr.IsGreatest) : expr.depth ≤ 2 := by
  cases h with
  | call hleft hright =>
      have hargs : depths [_, _] ≤ 1 :=
        depths_le (List.forall_mem_cons.mpr ⟨hleft.depth_le,
          List.forall_mem_singleton.mpr hright.depth_le⟩)
      exact Nat.succ_le_succ hargs

theorem IsItem.windowFree_of_mem_operands (h : expr.IsItem) :
    ∀ operand ∈ expr.operands, operand.windowFree := by
  intro operand hoperand
  cases h with
  | reference h =>
      cases h
      cases hoperand
  | greatest h =>
      cases h with
      | call hleft hright =>
          rcases List.mem_pair.mp hoperand with rfl | rfl
          · exact hleft.windowFree
          · exact hright.windowFree
  | rowNumber hkeys => exact (hkeys operand hoperand).windowFree
  | maxOver hsource hkeys =>
      rcases List.mem_cons.mp hoperand with rfl | hoperand
      · exact hsource.windowFree
      · exact (hkeys operand hoperand).windowFree

theorem IsItem.depth_le (h : expr.IsItem) : expr.depth ≤ 3 := by
  cases h with
  | reference h => exact Nat.le_trans h.depth_le (by decide)
  | greatest h => exact Nat.le_trans h.depth_le (by decide)
  | rowNumber hkeys =>
      have hdepths := depths_le fun key hkey => (hkeys key hkey).depth_le
      rw [Expr.depth, depths, Nat.zero_max]
      omega
  | maxOver hsource hkeys =>
      have hdepths := depths_le fun key hkey => (hkeys key hkey).depth_le
      have hdepth := hsource.depth_le
      simp only [Expr.depth, depths]
      omega

end Expr

/-- A level whose windows are items of the select list, with operands of a bounded form; its
conditions compare atoms, and its order has nothing but aliases. -/
structure Statement.WindowsOnTop (level : Statement) : Prop where
  items : ∀ item ∈ level.items, item.expr.IsItem
  conditions : ∀ condition ∈ level.conditions, ∃ left right, condition = Expr.equals left right ∧
    left.IsAtom ∧ right.IsAtom
  orderBy : ∀ item ∈ level.orderBy, ∃ name, item.expr = .aliasRef name

namespace Statement.WindowsOnTop

variable {level : Statement} (h : level.WindowsOnTop)

include h

theorem windowFree_of_item : ∀ item ∈ level.items, ∀ operand ∈ item.expr.operands,
    operand.windowFree := fun item hitem =>
  (h.items item hitem).windowFree_of_mem_operands

theorem windowFree_of_condition : ∀ condition ∈ level.conditions, ∀ operand ∈ condition.operands,
    operand.windowFree := by
  intro condition hcondition operand hoperand
  obtain ⟨left, right, rfl, hleft, hright⟩ := h.conditions condition hcondition
  rcases List.mem_pair.mp hoperand with rfl | rfl
  · exact hleft.windowFree
  · exact hright.windowFree

theorem depth_le : ∀ item ∈ level.items, item.expr.depth ≤ 3 := fun item hitem =>
  (h.items item hitem).depth_le

end Statement.WindowsOnTop

end FlatAggregate
