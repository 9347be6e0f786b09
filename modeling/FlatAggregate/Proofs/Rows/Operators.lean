import Mathlib.Data.List.Forall2
import Mathlib.Data.List.ReduceOption
import Mathlib.Order.MinMax
import Mathlib.Order.Monotone.Basic

/-!
# Row operators

The operators of a flat query, on lists of rows of any kind: the full outer join, the greatest of
several values, and the two windows, the number of a row among the rows of its partition and the
greatest value of a partition. A value may be absent. An absent value equals nothing, not even
another absent one, and competes with nothing; but all absent keys make up one partition.

Windows take the keys and values of the rows as lists, so two readings of the same rows have the
same windows as soon as they give the rows the same keys and values.

A row of the left side is paired with all of its partners (`withPartners`), so a join may repeat
rows. `rank` numbers a row among those with its key by their order, and `spread` takes the greatest
value of a key.
-/

namespace FlatAggregate

/-- The values of columns: they are ordered, and the numbers are among them. -/
class Domain (V : Type) extends LinearOrder V where
  number : Int → V
  number_lt : ∀ {n m : Int}, n < m → number n < number m

instance : Domain Int := ⟨id, fun h => h⟩

variable {α β γ δ K V : Type}

abbrev ofNumber [Domain V] (n : Int) : Option V := some (Domain.number n)

theorem ofNumber_inj [Domain V] {n m : Int} : ofNumber (V := V) n = ofNumber m ↔ n = m := by
  rw [Option.some.injEq]
  refine ⟨fun heq => ?_, congrArg _⟩
  by_contra hne
  rcases Int.lt_or_gt_of_ne hne with hlt | hlt
  · exact (Domain.number_lt hlt).ne heq
  · exact (Domain.number_lt hlt).ne' heq

def sameValue [DecidableEq V] : Option V → Option V → Bool
  | some left, some right => left = right
  | _, _ => false

theorem sameValue_iff [DecidableEq V] {left right : Option V} :
    sameValue left right ↔ left = right ∧ left ≠ none := by
  cases left <;> cases right <;> simp [sameValue]

def withPartners (on : α → β → Bool) (right : List β) (a : α) : List (Option α × Option β) :=
  match right.filter (on a) with
  | [] => [(some a, none)]
  | partners => partners.map fun b => (some a, some b)

/-- The full outer join: all pairs that agree, and the rows of both sides without a partner, those
of the left side at their place and those of the right side at the end. -/
def fullOuter (on : α → β → Bool) (left : List α) (right : List β) : List (Option α × Option β) :=
  left.flatMap (withPartners on right) ++
    (right.filter fun b => !left.any (on · b)).map fun b => (none, some b)

section FullOuter

variable {on : α → β → Bool} {left : List α} {right : List β}

theorem mem_withPartners {a : α} {pair : Option α × Option β} :
    pair ∈ withPartners on right a ↔
      (∃ b ∈ right, on a b ∧ pair = (some a, some b)) ∨
        (∀ b ∈ right, ¬on a b) ∧ pair = (some a, none) := by
  cases h : right.filter (on a) with
  | nil =>
      have hnone : ∀ b ∈ right, ¬on a b := List.filter_eq_nil_iff.mp h
      rw [withPartners, h, List.mem_singleton]
      constructor
      · exact fun heq => .inr ⟨hnone, heq⟩
      · rintro (⟨b, hb, hon, -⟩ | ⟨-, heq⟩)
        · exact absurd hon (hnone b hb)
        · exact heq
  | cons first rest =>
      have hmem : ∀ b, b ∈ first :: rest ↔ b ∈ right ∧ on a b := fun b => by
        rw [← h, List.mem_filter]
      have hfirst := (hmem first).mp List.mem_cons_self
      rw [withPartners, h]
      simp only [List.mem_map, hmem]
      constructor
      · rintro ⟨b, ⟨hb, hon⟩, rfl⟩
        exact .inl ⟨b, hb, hon, rfl⟩
      · rintro (⟨b, hb, hon, rfl⟩ | ⟨hnone, -⟩)
        · exact ⟨b, ⟨hb, hon⟩, rfl⟩
        · exact absurd hfirst.2 (hnone first hfirst.1)

/-- The rows of a full outer join are the agreeing pairs and the rows without a partner. -/
theorem mem_fullOuter {pair : Option α × Option β} :
    pair ∈ fullOuter on left right ↔
      (∃ a ∈ left, ∃ b ∈ right, on a b ∧ pair = (some a, some b)) ∨
      (∃ a ∈ left, (∀ b ∈ right, ¬on a b) ∧ pair = (some a, none)) ∨
      ∃ b ∈ right, (∀ a ∈ left, ¬on a b) ∧ pair = (none, some b) := by
  simp only [fullOuter, List.mem_append, List.mem_flatMap, mem_withPartners, List.mem_map,
    List.mem_filter, Bool.not_eq_true', List.any_eq_false]
  constructor
  · rintro (⟨a, ha, h | h⟩ | ⟨b, ⟨hb, hon⟩, rfl⟩)
    · exact .inl ⟨a, ha, h⟩
    · exact .inr (.inl ⟨a, ha, h⟩)
    · exact .inr (.inr ⟨b, hb, hon, rfl⟩)
  · rintro (⟨a, ha, h⟩ | ⟨a, ha, h⟩ | ⟨b, hb, hon, rfl⟩)
    · exact .inl ⟨a, ha, .inl h⟩
    · exact .inl ⟨a, ha, .inr h⟩
    · exact .inr ⟨b, ⟨hb, hon⟩, rfl⟩

theorem left_of_mem_fullOuter {pair : Option α × Option β} (h : pair ∈ fullOuter on left right)
    {a : α} (ha : pair.1 = some a) : a ∈ left := by
  rcases mem_fullOuter.mp h with ⟨c, hc, b, -, -, rfl⟩ | ⟨c, hc, -, rfl⟩ | ⟨b, -, -, rfl⟩
  · exact Option.some.inj ha ▸ hc
  · exact Option.some.inj ha ▸ hc
  · cases ha

theorem right_of_mem_fullOuter {pair : Option α × Option β} (h : pair ∈ fullOuter on left right)
    {b : β} (hb : pair.2 = some b) : b ∈ right := by
  rcases mem_fullOuter.mp h with ⟨a, -, c, hc, -, rfl⟩ | ⟨a, -, -, rfl⟩ | ⟨c, hc, -, rfl⟩
  · exact Option.some.inj hb ▸ hc
  · cases hb
  · exact Option.some.inj hb ▸ hc

theorem exists_mem_fullOuter_left {a : α} (ha : a ∈ left) :
    ∃ pair ∈ fullOuter on left right, pair.1 = some a := by
  by_cases h : ∃ b ∈ right, on a b
  · obtain ⟨b, hb, hon⟩ := h
    exact ⟨(some a, some b), mem_fullOuter.mpr (.inl ⟨a, ha, b, hb, hon, rfl⟩), rfl⟩
  · refine ⟨(some a, none), mem_fullOuter.mpr (.inr (.inl ⟨a, ha, ?_, rfl⟩)), rfl⟩
    exact fun b hb hon => h ⟨b, hb, hon⟩

theorem exists_mem_fullOuter_right {b : β} (hb : b ∈ right) :
    ∃ pair ∈ fullOuter on left right, pair.2 = some b := by
  by_cases h : ∃ a ∈ left, on a b
  · obtain ⟨a, ha, hon⟩ := h
    exact ⟨(some a, some b), mem_fullOuter.mpr (.inl ⟨a, ha, b, hb, hon, rfl⟩), rfl⟩
  · refine ⟨(none, some b), mem_fullOuter.mpr (.inr (.inr ⟨b, hb, ?_, rfl⟩)), rfl⟩
    exact fun a ha hon => h ⟨a, ha, hon⟩

theorem withPartners_map {left' : γ → α} {right' : δ → β} {rows : List δ} (c : γ) :
    withPartners on (rows.map right') (left' c) =
      (withPartners (fun c d => on (left' c) (right' d)) rows c).map
        (Prod.map (Option.map left') (Option.map right')) := by
  have hfilter : (rows.map right').filter (on (left' c)) =
      (rows.filter fun d => on (left' c) (right' d)).map right' := by
    rw [List.filter_map]
    rfl
  rw [withPartners, withPartners, hfilter]
  cases rows.filter fun d => on (left' c) (right' d) with
  | nil => rfl
  | cons first rest => simp

theorem fullOuter_map (on : α → β → Bool) (left' : γ → α) (right' : δ → β) (left : List γ)
    (right : List δ) :
    fullOuter on (left.map left') (right.map right') =
      (fullOuter (fun c d => on (left' c) (right' d)) left right).map
        (Prod.map (Option.map left') (Option.map right')) := by
  have hpairs : (left.map left').flatMap (withPartners on (right.map right')) =
      (left.flatMap (withPartners (fun c d => on (left' c) (right' d)) right)).map
        (Prod.map (Option.map left') (Option.map right')) := by
    rw [List.flatMap_map, List.map_flatMap]
    exact List.flatMap_congr fun c _ => withPartners_map c
  have hrest : (right.map right').filter (fun b => !(left.map left').any (on · b)) =
      (right.filter fun d => !left.any fun c => on (left' c) (right' d)).map right' := by
    rw [List.filter_map]
    exact congrArg _ (List.filter_congr fun d _ => by simp [Function.comp_def])
  rw [fullOuter, fullOuter, hpairs, hrest, List.map_append, List.map_map, List.map_map]
  rfl

theorem withPartners_congr {on' : α → β → Bool} {a : α} (h : ∀ b ∈ right, on a b = on' a b) :
    withPartners on right a = withPartners on' right a := by
  rw [withPartners, withPartners, List.filter_congr h]

theorem fullOuter_congr {on' : α → β → Bool} (h : ∀ a ∈ left, ∀ b ∈ right, on a b = on' a b) :
    fullOuter on left right = fullOuter on' left right := by
  have hpairs : left.flatMap (withPartners on right) = left.flatMap (withPartners on' right) :=
    List.flatMap_congr fun a ha => withPartners_congr (h a ha)
  have hrest : (right.filter fun b => !left.any (on · b)) =
      right.filter fun b => !left.any (on' · b) := by
    refine List.filter_congr fun b hb => ?_
    congr 1
    rw [Bool.eq_iff_iff, List.any_eq_true, List.any_eq_true]
    constructor
    · rintro ⟨a, ha, hon⟩
      exact ⟨a, ha, h a ha b hb ▸ hon⟩
    · rintro ⟨a, ha, hon⟩
      exact ⟨a, ha, (h a ha b hb).symm ▸ hon⟩
  rw [fullOuter, fullOuter, hpairs, hrest]

/-- Lists whose rows stand for each other are joined alike, if the rows agree alike. -/
theorem forall₂_fullOuter {on' : γ → δ → Bool} {R : α → γ → Prop} {S : β → δ → Prop}
    {left' : List γ} {right' : List δ} (hleft : List.Forall₂ R left left')
    (hright : List.Forall₂ S right right')
    (hon : ∀ a c b d, R a c → S b d → on a b = on' c d) :
    List.Forall₂ (fun pair pair' => Option.Rel R pair.1 pair'.1 ∧ Option.Rel S pair.2 pair'.2)
      (fullOuter on left right) (fullOuter on' left' right') := by
  obtain ⟨hlength, hzip⟩ := List.forall₂_iff_zip.mp hleft
  obtain ⟨hlength', hzip'⟩ := List.forall₂_iff_zip.mp hright
  -- both joins are the join of the pairs of rows that stand for each other
  have hjoin : fullOuter on left right =
      (fullOuter (fun p q => on p.1 q.1) (left.zip left') (right.zip right')).map
        (Prod.map (Option.map Prod.fst) (Option.map Prod.fst)) := by
    rw [← fullOuter_map, List.map_fst_zip hlength.le, List.map_fst_zip hlength'.le]
  have hjoin' : fullOuter on' left' right' =
      (fullOuter (fun p q => on p.1 q.1) (left.zip left') (right.zip right')).map
        (Prod.map (Option.map Prod.snd) (Option.map Prod.snd)) := by
    have hcongr : fullOuter (fun p q => on p.1 q.1) (left.zip left') (right.zip right') =
        fullOuter (fun p q => on' p.2 q.2) (left.zip left') (right.zip right') :=
      fullOuter_congr fun p hp q hq => hon _ _ _ _ (hzip hp) (hzip' hq)
    rw [hcongr, ← fullOuter_map, List.map_snd_zip hlength.ge, List.map_snd_zip hlength'.ge]
  rw [hjoin, hjoin', List.forall₂_map_left_iff, List.forall₂_map_right_iff, List.forall₂_same]
  intro pair hpair
  rcases mem_fullOuter.mp hpair with ⟨p, hp, q, hq, -, rfl⟩ | ⟨p, hp, -, rfl⟩ | ⟨q, hq, -, rfl⟩
  · exact ⟨.some (hzip hp), .some (hzip' hq)⟩
  · exact ⟨.some (hzip hp), .none⟩
  · exact ⟨.none, .some (hzip' hq)⟩

end FullOuter

/-- The greatest of the values that are there. -/
def greatest [Domain V] (values : List (Option V)) : Option V :=
  values.reduceOption.max?

section Greatest

variable [Domain V] {values : List (Option V)}

theorem greatest_eq_some_iff {v : V} :
    greatest values = some v ↔ some v ∈ values ∧ ∀ w, some w ∈ values → w ≤ v := by
  rw [greatest, List.max?_eq_some_iff]
  simp only [List.reduceOption_mem_iff]

theorem greatest_eq_none_iff : greatest values = none ↔ ∀ value ∈ values, value = none := by
  rw [greatest, List.max?_eq_none_iff, List.eq_nil_iff_forall_not_mem]
  simp only [List.reduceOption_mem_iff]
  constructor
  · intro h value hv
    cases value with
    | none => rfl
    | some v => exact absurd hv (h v)
  · intro h v hv
    simpa using h _ hv

theorem greatest_eq_of_forall {v : V} (hmem : some v ∈ values)
    (h : ∀ w, some w ∈ values → w = v) : greatest values = some v :=
  greatest_eq_some_iff.mpr ⟨hmem, fun w hw => (h w hw).le⟩

theorem greatest_same (value : Option V) : greatest [value, value] = value := by
  cases value with
  | none => exact greatest_eq_none_iff.mpr (by simp)
  | some v => exact greatest_eq_of_forall (by simp) (by simp)

theorem greatest_none_right (value : Option V) : greatest [value, none] = value := by
  cases value with
  | none => exact greatest_same none
  | some v => exact greatest_eq_of_forall (by simp) (by simp)

theorem greatest_none_left (value : Option V) : greatest [none, value] = value := by
  cases value with
  | none => exact greatest_same none
  | some v => exact greatest_eq_of_forall (by simp) (by simp)

end Greatest

/-- The number of the row at a position among the rows with its key. -/
def rank [DecidableEq K] (keys : List K) (position : Nat) (key : K) : Nat :=
  (keys.take (position + 1)).count key

def spread [DecidableEq K] [Domain V] (keys : List K) (values : List (Option V)) (key : K) :
    Option V :=
  greatest (((keys.zip values).filter (·.1 = key)).map Prod.snd)

theorem spread_map [DecidableEq K] [Domain V] (rows : List α) (key : α → K)
    (value : α → Option V) (k : K) :
    spread (rows.map key) (rows.map value) k =
      greatest ((rows.filter (key · = k)).map value) := by
  rw [spread, List.zip_map', List.filter_map, List.map_map]
  rfl

theorem spread_map_injective [DecidableEq K] [DecidableEq α] [Domain V] {f : α → K}
    (hf : Function.Injective f) (keys : List α) (values : List (Option V)) (key : α) :
    spread (keys.map f) values (f key) = spread keys values key := by
  rw [spread, spread, List.zip_map_left, List.filter_map, List.map_map]
  congr 2
  exact List.filter_congr fun pair _ => by simp [hf.eq_iff]

end FlatAggregate
