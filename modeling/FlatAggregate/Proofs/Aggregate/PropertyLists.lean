import FlatAggregate.Proofs.Aggregate.Paths
import Mathlib.Data.List.Induction

/-!
# Paths as lists of properties

A path built from the root by valid properties stands for the list of these properties, though it
is kept as one text: no other list has it (`ofProperties_injective`), its parent is the path of the
list without the last property, and the paths above it are those of the proper prefixes of the list
(`isAncestor_ofProperties_iff`).
-/

namespace FlatAggregate

abbrev PropertyName := { property : String // validProperty property }

namespace EntityPath

def ofProperties (properties : List PropertyName) : EntityPath :=
  properties.foldl (fun path (property : PropertyName) => path.child property) root

@[simp] theorem ofProperties_nil : ofProperties [] = root := rfl

theorem ofProperties_append_singleton (properties : List PropertyName) (property : PropertyName) :
    ofProperties (properties ++ [property]) = (ofProperties properties).child property := by
  rw [ofProperties, List.foldl_append]
  rfl

theorem parent_ofProperties_append_singleton (properties : List PropertyName)
    (property : PropertyName) :
    (ofProperties (properties ++ [property])).parent = some (ofProperties properties) := by
  rw [ofProperties_append_singleton, parent_child property.property]

theorem parent_eq_none_iff {path : EntityPath} : path.parent = none ↔ path = root := by
  constructor
  · intro h
    rw [parent] at h
    split at h
    · rename_i hroot
      exact congrArg EntityPath.mk (String.isEmpty_iff.mp hroot)
    · contradiction
  · rintro rfl
    exact parent_root

theorem ofProperties_eq_root_iff {properties : List PropertyName} :
    ofProperties properties = root ↔ properties = [] := by
  constructor
  · intro h
    cases properties using List.reverseRecOn with
    | nil => rfl
    | append_singleton properties property =>
        have hparent := parent_ofProperties_append_singleton properties property
        rw [h, parent_root] at hparent
        contradiction
  · rintro rfl
    rfl

theorem ofProperties_injective : Function.Injective ofProperties := by
  intro properties others h
  induction properties using List.reverseRecOn generalizing others with
  | nil => exact (ofProperties_eq_root_iff.mp h.symm).symm
  | append_singleton properties property ih =>
      cases others using List.reverseRecOn with
      | nil => exact ofProperties_eq_root_iff.mp h
      | append_singleton others other =>
          have hparent := congrArg parent h
          rw [parent_ofProperties_append_singleton, parent_ofProperties_append_singleton] at hparent
          obtain rfl := ih (Option.some.inj hparent)
          rw [ofProperties_append_singleton, ofProperties_append_singleton] at h
          rw [Subtype.ext (child_injective _ h)]

theorem child_ofProperties_eq_iff {properties others : List PropertyName}
    {property other : PropertyName} :
    (ofProperties properties).child property = (ofProperties others).child other ↔
      properties = others ∧ property = other := by
  rw [← ofProperties_append_singleton, ← ofProperties_append_singleton,
    ofProperties_injective.eq_iff]
  exact List.append_singleton_inj

theorem not_isAncestor_root (ancestor : EntityPath) : ancestor.isAncestor root = false := by
  rw [isAncestor]
  rfl

/-- The paths above a path are those of the proper prefixes of its list. -/
theorem isAncestor_ofProperties_iff (properties others : List PropertyName) :
    (ofProperties properties).isAncestor (ofProperties others) ↔
      properties <+: others ∧ properties ≠ others := by
  induction others using List.reverseRecOn with
  | nil =>
      rw [ofProperties_nil, not_isAncestor_root, List.prefix_nil]
      simp
  | append_singleton others other ih =>
      rw [isAncestor_iff_of_parent (parent_ofProperties_append_singleton others other), ih,
        ofProperties_injective.eq_iff, List.prefix_concat_iff]
      constructor
      · rintro (rfl | ⟨hbelow, -⟩)
        · exact ⟨.inr List.prefix_rfl, by simp⟩
        · refine ⟨.inr hbelow, fun heq => ?_⟩
          have hlength := hbelow.length_le
          rw [heq, List.length_append] at hlength
          exact Nat.not_succ_le_self _ hlength
      · rintro ⟨heq | hbelow, hne⟩
        · exact absurd heq hne
        · exact (eq_or_ne others properties).imp_right fun hother => ⟨hbelow, hother.symm⟩

-- a path may go on with the text of another one and not be below it
example : isAncestor ⟨"a"⟩ ⟨"a.c"⟩ = true ∧ isAncestor ⟨"a"⟩ ⟨"ab.c"⟩ = false := by cbv

/-- No path has an endless line of parents. -/
theorem wellFounded_parent :
    WellFounded fun above path : EntityPath => path.parent = some above :=
  Subrelation.wf (r := fun above path => above.text.length < path.text.length)
    length_lt_of_parent (measure fun path : EntityPath => path.text.length).wf

/-- Paths are to their properties what lists are to their items. A child determines its path and its
property; its parent is where it starts, and only the root has no parent. The search for an ancestor
goes from parent to parent and ends; what it finds are the proper prefixes. -/
theorem ofProperties_like_list (properties others : List PropertyName)
    (property other : PropertyName) :
    ((ofProperties properties).child property = (ofProperties others).child other ↔
      properties = others ∧ property = other) ∧
    ((ofProperties properties).child property).parent = some (ofProperties properties) ∧
    ((ofProperties properties).parent = none ↔ ofProperties properties = root) ∧
    (WellFounded fun above path : EntityPath => path.parent = some above) ∧
    ((ofProperties properties).isAncestor (ofProperties others) ↔
      properties <+: others ∧ properties ≠ others) :=
  ⟨child_ofProperties_eq_iff, parent_child property.property, parent_eq_none_iff,
    wellFounded_parent, isAncestor_ofProperties_iff properties others⟩

end EntityPath

end FlatAggregate
