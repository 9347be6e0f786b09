import FlatAggregate.Proofs.Plan.Assembled

/-!
# The tokens of a built plan

The base columns of a built plan bear the tokens of its tables, in the order of the join tree. So if
no token occurs twice, a token stands for one column of the plan.

`PlanParts.tokens` lists them off the columns. `Plan.TokensDistinct` is the condition under which an
alias of a column means one column only.
-/

namespace FlatAggregate

variable {T C : Type}

def PlanColumn.token? : PlanColumn C → Option C
  | .base token => some token
  | _ => none

theorem PlanColumn.eq_base_of_token? {column : PlanColumn C} {token : C}
    (h : column.token? = some token) : column = .base token := by
  cases column with
  | base => exact congrArg PlanColumn.base (Option.some.inj h)
  | _ => cases h

namespace PlanParts

variable (parts : PlanParts T C)

def tokens : List C :=
  parts.columns.toList.filterMap PlanColumn.token?

theorem tokens_addColumns (columns : List (PlanColumn C)) :
    (parts.addColumns columns).1.tokens = parts.tokens ++ columns.filterMap PlanColumn.token? := by
  simp [tokens, addColumns]

theorem tokens_addColumn (column : PlanColumn C) :
    (parts.addColumn column).1.tokens = parts.tokens ++ column.token?.toList := by
  cases h : column.token? <;> simp [tokens, addColumn, h]

theorem tokens_addSelect (select : PlanSelect T) :
    (parts.addSelect select).1.tokens = parts.tokens := rfl

theorem filterMap_base (tokens : List C) :
    (tokens.map PlanColumn.base).filterMap PlanColumn.token? = tokens := by
  rw [List.filterMap_map]
  exact List.filterMap_some

theorem filterMap_of_forall {α : Type} {define : α → PlanColumn C}
    (h : ∀ a, (define a).token? = none) (items : List α) :
    (items.map define).filterMap PlanColumn.token? = [] := by
  rw [List.filterMap_map, List.filterMap_eq_nil_iff]
  exact fun a _ => h a

theorem tokens_addScan (spec : TableSpec T C) (incoming : List ColumnId) :
    (parts.addScan spec incoming).1.tokens = parts.tokens ++ spec.tokens := by
  simp only [addScan, tokens_addSelect, tokens_addColumn, tokens_addColumns, filterMap_base]
  rw [filterMap_of_forall fun _ => rfl]
  simp [TableSpec.tokens, PlanColumn.token?]

theorem tokens_addView (scan : Operand) : (parts.addView scan).1.tokens = parts.tokens := by
  simp [addView, tokens_addSelect, tokens_addColumn, PlanColumn.token?]

theorem tokens_addJoin (parent child : Operand) (multiplicity : Multiplicity) :
    (parts.addJoin parent child multiplicity).1.tokens = parts.tokens := by
  simp only [addJoin, tokens_addSelect, tokens_addColumn, tokens_addColumns]
  rw [filterMap_of_forall fun _ => rfl, filterMap_of_forall fun _ => rfl,
    filterMap_of_forall fun _ => rfl, filterMap_of_forall fun _ => rfl]
  simp [PlanColumn.token?]

end PlanParts

theorem Builds.tokens_eq {side : Side} {before after : PlanParts T C} {tree : JoinTree T C}
    {incoming : List ColumnId} {operand : Operand}
    (h : Builds side before tree incoming after operand) :
    after.tokens = before.tokens ++ tree.specs.flatMap TableSpec.tokens := by
  induction h with
  | scan before spec incoming => simp [PlanParts.tokens_addScan, JoinTree.specs]
  | view before spec incoming =>
      simp [PlanParts.tokens_addView, PlanParts.tokens_addScan, JoinTree.specs]
  | join multiplicity owner _ _ _ ihp ihc =>
      rw [PlanParts.tokens_addJoin, ihc, ihp, JoinTree.specs, List.flatMap_append,
        List.append_assoc]

def Plan.TokensDistinct (plan : Plan T C) : Prop :=
  ∀ (column column' : ColumnId) (token : C), plan.columns[column]? = some (.base token) →
    plan.columns[column']? = some (.base token) → column = column'

theorem getElem?_inj_of_nodup_filterMap {α β : Type} {f : α → Option β} {items : List α}
    (h : (items.filterMap f).Nodup) {i j : Nat} {a b : α} {image : β} (ha : items[i]? = some a)
    (hb : items[j]? = some b) (hfa : f a = some image) (hfb : f b = some image) : i = j := by
  have hpairs := List.pairwise_filterMap.mp h
  obtain ⟨hi, rfl⟩ := List.getElem?_eq_some_iff.mp ha
  obtain ⟨hj, rfl⟩ := List.getElem?_eq_some_iff.mp hb
  rcases Nat.lt_trichotomy i j with hlt | heq | hlt
  · exact absurd rfl (List.pairwise_iff_getElem.mp hpairs i j hi hj hlt image hfa image hfb)
  · exact heq
  · exact absurd rfl (List.pairwise_iff_getElem.mp hpairs j i hj hi hlt image hfb image hfa)

/-- In a list in which an image comes from one position the images are distinct. -/
theorem nodup_filterMap_of_getElem?_inj {α β : Type} {f : α → Option β} {items : List α}
    (h : ∀ (i j : Nat) (a b : α) (image : β), items[i]? = some a → items[j]? = some b →
      f a = some image → f b = some image → i = j) : (items.filterMap f).Nodup := by
  refine List.pairwise_filterMap.mpr (List.pairwise_iff_getElem.mpr ?_)
  rintro i j hi hj hlt image hfa image' hfb rfl
  exact Nat.ne_of_lt hlt (h i j _ _ image (List.getElem?_eq_getElem hi)
    (List.getElem?_eq_getElem hj) hfa hfb)

section Assembled

variable [DecidableEq T] [ToString T] {root : TableSpec T C} {additions : List (Addition T C)}
  {draft : Draft T C} {plan : Plan T C}

/-- No token stands for two columns of a plan if and only if the tokens of its tables are
distinct. -/
theorem Draft.tokensDistinct_iff_of_assemble (h : assemble root additions = .ok draft)
    (hplan : draft.plan = .ok plan) :
    plan.TokensDistinct ↔
      ((root :: additions.map Addition.spec).flatMap TableSpec.tokens).Nodup := by
  obtain ⟨top, hbuilds, -⟩ := builds_of_assemble h hplan
  have hperm := (specs_of_assemble h).flatMap_right TableSpec.tokens
  have htokens : plan.columns.toList.filterMap PlanColumn.token? =
      (AggregateTree.ofAdditions root additions).joinTree.specs.flatMap TableSpec.tokens :=
    hbuilds.tokens_eq
  rw [← hperm.nodup_iff, ← htokens]
  constructor
  · intro hdistinct
    refine nodup_filterMap_of_getElem?_inj fun i j a b token ha hb hfa hfb => ?_
    rw [Array.getElem?_toList] at ha hb
    exact hdistinct i j token (PlanColumn.eq_base_of_token? hfa ▸ ha)
      (PlanColumn.eq_base_of_token? hfb ▸ hb)
  · intro hnodup column column' token hc hc'
    rw [← Array.getElem?_toList] at hc hc'
    exact getElem?_inj_of_nodup_filterMap hnodup hc hc' rfl rfl

theorem Draft.tokensDistinct_of_assemble (h : assemble root additions = .ok draft)
    (hplan : draft.plan = .ok plan)
    (htokens : ((root :: additions.map Addition.spec).flatMap TableSpec.tokens).Nodup) :
    plan.TokensDistinct :=
  (tokensDistinct_iff_of_assemble h hplan).mpr htokens

end Assembled

end FlatAggregate
