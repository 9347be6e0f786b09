/-!
# Entity paths

The path of an entity names the properties that lead to it from the root of its aggregate, with
dots between. The root has the empty path.

A path is a text and read from its end: its parent is what stands before its last dot. For names
that are not empty and hold no dot this undoes `child`.

A `ColumnRef` is a column of the table at an entity; plans know the columns of an aggregate by
these. They are ordered by `ColumnRef.le`, and `sorted` lists each of them once. A path reads as its
text and the root as `(root)`; a column reads with the path of its entity in front, or alone if it
belongs to the root.
-/

namespace FlatAggregate

structure EntityPath where
  text : String
  deriving DecidableEq, Repr, Inhabited

namespace EntityPath

def root : EntityPath := ⟨""⟩

def isRoot (path : EntityPath) : Bool := path.text.isEmpty

def child (path : EntityPath) (property : String) : EntityPath :=
  if path.isRoot then ⟨property⟩ else ⟨path.text ++ "." ++ property⟩

/-- What stands before the last dot; nothing if there is no dot. -/
def beforeLastDot (letters : List Char) : List Char :=
  match letters.reverse.dropWhile (· ≠ '.') with
  | [] => []
  | _ :: before => before.reverse

theorem length_beforeLastDot_lt {letters : List Char} (h : letters ≠ []) :
    (beforeLastDot letters).length < letters.length := by
  have hpos : 0 < letters.length := List.length_pos_iff.2 h
  have hdrop := (List.dropWhile_suffix (p := (· ≠ '.')) (l := letters.reverse)).length_le
  unfold beforeLastDot
  split
  · simpa using hpos
  · next before heq =>
    rw [heq] at hdrop
    simp at hdrop ⊢
    omega

def parent (path : EntityPath) : Option EntityPath :=
  if path.isRoot then none else some ⟨String.ofList (beforeLastDot path.text.toList)⟩

@[simp] theorem parent_root : root.parent = none := rfl

theorem length_lt_of_parent {path above : EntityPath} (h : path.parent = some above) :
    above.text.length < path.text.length := by
  unfold parent at h
  split at h
  · simp at h
  · next hroot =>
    cases h
    have hne : path.text.toList ≠ [] := by
      intro hnil
      exact hroot (by simp [isRoot, String.toList_eq_nil_iff.1 hnil])
    simpa [String.length] using length_beforeLastDot_lt hne

/-- Whether `ancestor` is met on the way from `path` to the root, `path` itself not counted. -/
def isAncestor (ancestor path : EntityPath) : Bool :=
  match _h : path.parent with
  | none => false
  | some above => above = ancestor || ancestor.isAncestor above
termination_by path.text.length
decreasing_by exact length_lt_of_parent _h

instance : ToString EntityPath where
  toString path := if path.isRoot then "(root)" else path.text

end EntityPath

structure ColumnRef where
  entity : EntityPath
  column : String
  deriving DecidableEq, Repr

namespace ColumnRef

instance : ToString ColumnRef where
  toString ref :=
    if ref.entity.isRoot then ref.column else toString ref.entity ++ "." ++ ref.column

/-- The order of columns: by the path of the entity, then by the name, code point by code point. -/
def le (left right : ColumnRef) : Bool :=
  left.entity.text < right.entity.text ||
    (left.entity.text = right.entity.text && left.column ≤ right.column)

def withoutRepeats : List ColumnRef → List ColumnRef
  | first :: second :: rest =>
    if first = second then withoutRepeats (second :: rest)
    else first :: withoutRepeats (second :: rest)
  | refs => refs

def sorted (refs : List ColumnRef) : List ColumnRef :=
  withoutRepeats (refs.mergeSort le)

end ColumnRef

end FlatAggregate
