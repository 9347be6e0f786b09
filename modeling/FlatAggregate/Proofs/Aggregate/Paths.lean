import FlatAggregate.Aggregate.Schema
import Mathlib.Data.List.TakeWhile
import Mathlib.Logic.Relation

/-!
# Paths and their parents

For valid properties `parent` undoes `child`. A path is within another one when the way from parent
to parent leads there. A path has one parent, so no path is within two siblings
(`EntityPath.Within.eq_of_siblings`).

The way up from a path gets shorter with every step, so `EntityPath.isAncestor` ends; what it finds
is told by one step at a time (`isAncestor_iff_of_parent`).
-/

namespace FlatAggregate

theorem validProperty_iff {property : String} :
    validProperty property ↔ property ≠ "" ∧ '.' ∉ property.toList := by
  simp [validProperty]

namespace EntityPath

variable {path above sibling : EntityPath} {property property' : String}

theorem dropWhile_of_not_mem {letters : List Char} (h : '.' ∉ letters) (rest : List Char) :
    (letters.reverse ++ rest).dropWhile (· ≠ '.') = rest.dropWhile (· ≠ '.') := by
  refine List.dropWhile_append_of_pos fun letter hletter => ?_
  have hne : letter ≠ '.' := fun heq => h (heq ▸ List.mem_reverse.mp hletter)
  simpa using hne

theorem beforeLastDot_of_not_mem {letters : List Char} (h : '.' ∉ letters) :
    beforeLastDot letters = [] := by
  have hdrop : letters.reverse.dropWhile (· ≠ '.') = [] := by
    simpa using dropWhile_of_not_mem h []
  rw [beforeLastDot, hdrop]

theorem beforeLastDot_append {before after : List Char} (h : '.' ∉ after) :
    beforeLastDot (before ++ '.' :: after) = before := by
  have hdrop : (before ++ '.' :: after).reverse.dropWhile (· ≠ '.') = '.' :: before.reverse := by
    rw [List.reverse_append, List.reverse_cons, List.append_assoc, dropWhile_of_not_mem h]
    simp
  rw [beforeLastDot, hdrop]
  exact List.reverse_reverse before

theorem parent_child (h : validProperty property) : (path.child property).parent = some path := by
  obtain ⟨hne, hdot⟩ := validProperty_iff.mp h
  rw [child]
  split
  · rename_i hroot
    have hpath : path = ⟨""⟩ := congrArg EntityPath.mk (String.isEmpty_iff.mp hroot)
    rw [parent, if_neg (by simpa [isRoot] using hne), beforeLastDot_of_not_mem hdot, hpath]
  · have hletters : (path.text ++ "." ++ property).toList =
        path.text.toList ++ '.' :: property.toList := by simp
    rw [parent, if_neg (by simp [isRoot]), hletters, beforeLastDot_append hdot,
      String.ofList_toList]

theorem child_injective (path : EntityPath) : Function.Injective path.child := by
  intro property property' h
  rw [child, child] at h
  split at h
  · exact congrArg text h
  · simpa using congrArg text h

/-- The way from a path to the root begins at its parent. -/
theorem isAncestor_iff_of_parent {ancestor : EntityPath} (h : path.parent = some above) :
    ancestor.isAncestor path ↔ above = ancestor ∨ ancestor.isAncestor above := by
  rw [isAncestor]
  split
  · simp_all
  · rename_i upper hupper
    obtain rfl := Option.some.inj (h.symm.trans hupper)
    rw [Bool.or_eq_true, decide_eq_true_iff]

/-- The way from parent to parent leads from a path to another one. -/
def Within (path above : EntityPath) : Prop :=
  Relation.ReflTransGen (fun lower upper => lower.parent = some upper) path above

namespace Within

theorem length_le (h : path.Within above) : above.text.length ≤ path.text.length := by
  induction h with
  | refl => exact Nat.le_refl _
  | tail _ hparent ih => exact Nat.le_trans (Nat.le_of_lt (length_lt_of_parent hparent)) ih

theorem not_of_parent (h : path.parent = some above) : ¬ above.Within path := fun hwithin =>
  Nat.not_le.mpr (length_lt_of_parent h) hwithin.length_le

theorem eq_of_parent (h : path.Within sibling) (hpath : path.parent = some above)
    (hsibling : sibling.parent = some above) : path = sibling := by
  rcases Relation.ReflTransGen.cases_head h with heq | ⟨upper, hupper, hrest⟩
  · exact heq
  · obtain rfl := Option.some.inj (hpath.symm.trans hupper)
    exact absurd hrest (not_of_parent hsibling)

theorem eq_of_siblings {first second : EntityPath} (h : path.Within first)
    (h' : path.Within second) (hfirst : first.parent = some above)
    (hsecond : second.parent = some above) : first = second := by
  have hunique : Relator.RightUnique fun lower upper : EntityPath => lower.parent = some upper :=
    fun _ _ _ hupper hupper' => Option.some.inj (hupper.symm.trans hupper')
  rcases Relation.ReflTransGen.total_of_right_unique hunique h h' with hwithin | hwithin
  · exact eq_of_parent hwithin hfirst hsecond
  · exact (eq_of_parent hwithin hsecond hfirst).symm

end Within

end EntityPath

end FlatAggregate
