import FlatAggregate.Proofs.Rows.Lineage
import Mathlib.Data.List.Nodup

/-!
# A database of two families

In `twoFamilies` every table has one row of each of two families, and one table without children has
a second row of each. A row refers to the first row of its own family. So the first rows of a family
make up one row of every join, and the two second rows of the last table stay without partners above
it: they are strays, known only by the foreign keys that their branch offers.

A table that has a further child after the branch of the strays loses the distinction. The identity
of its join is absent on both strays, which so fall into one group, and the maximum over this group
is the foreign key of the second family.
-/

namespace FlatAggregate

variable {T C V : Type}

namespace JoinTree

/-- The tables without children: those that stand alone on a child side. -/
def leaves : Side → JoinTree T C → List T
  | .parent, table _ => []
  | .child, table spec => [spec.table]
  | _, join parent child _ _ => parent.leaves .parent ++ child.leaves .child

/-- A table above `late` has a further child after the branch in which `late` stands. -/
def Missed (late : T) : JoinTree T C → Prop
  | table _ => False
  | join parent child _ _ => late ∈ parent.tables ∨ child.Missed late

theorem leaves_subset {side : Side} (tree : JoinTree T C) : tree.leaves side ⊆ tree.tables := by
  induction tree generalizing side with
  | table spec => cases side <;> simp [leaves]
  | join parent child m o ihp ihc =>
      rw [leaves, tables_join, List.append_subset]
      exact ⟨List.subset_append_of_subset_left _ ihp, List.subset_append_of_subset_right _ ihc⟩

end JoinTree

namespace Plan

variable [DecidableEq T] [Domain V]

/-- The row at a position: its foreign keys are the number of its family, and all its other columns
the number of the row. -/
def familyRow (plan : Plan T C) (position : Nat) (column : ColumnId) : Option V :=
  match plan.columns[column]? with
  | some (.foreignKey _ _) => ofNumber ((position % 2 : Nat) + 1)
  | _ => ofNumber (position + 1)

/-- One row of each of two families in every table, two of each in the table `late`. -/
def twoFamilies (plan : Plan T C) (late : T) : Database T V := fun table =>
  (List.range (if table = late then 4 else 2)).map plan.familyRow

variable {plan : Plan T C} {whole : JoinTree T C} {top : Operand} {late : T}

omit [DecidableEq T] in
theorem familyRow_foreignKey {column references : ColumnId} {owner : SelectId}
    (h : plan.columns[column]? = some (.foreignKey references owner)) (position : Nat) :
    plan.familyRow (V := V) position column =
      ofNumber ((position % 2 : Nat) + 1) := by
  rw [familyRow, h]

omit [DecidableEq T] in
theorem familyRow_base {column : ColumnId} {token : C}
    (h : plan.columns[column]? = some (.base token)) (position : Nat) :
    plan.familyRow (V := V) position column = ofNumber (position + 1) := by
  rw [familyRow, h]

theorem twoFamilies_getElem? {table : T} {position : Nat} {row : ColumnId → Option V}
    (h : (plan.twoFamilies late table)[position]? = some row) : row = plan.familyRow position := by
  rw [twoFamilies, List.getElem?_map] at h
  obtain ⟨other, hother, rfl⟩ := Option.map_eq_some_iff.mp h
  obtain ⟨hlt, rfl⟩ := List.getElem?_eq_some_iff.mp hother
  rw [List.getElem_range]

section Consistency

variable (hplan : plan.Laid .parent whole [] ⟨0, 0⟩ plan.parts.mark top)

include hplan

omit [DecidableEq T] in
theorem Laid.base_of_declaresId {table : T} {id : ColumnId} (h : plan.DeclaresId table id) :
    ∃ token, plan.columns[id]? = some (.base token) := by
  obtain ⟨select, scan, hscan, rfl, hid⟩ := h
  obtain ⟨spec, -, incoming, mark, next, -, hlaid, -⟩ := hplan.exists_hasScan_of_scanAt hscan
  obtain ⟨token, -, heq⟩ := hlaid.id.exists_source (by simp [hid] : id ∈ scan.id.toList)
  exact ⟨token, heq⟩

theorem Laid.refers_twoFamilies {place parent : T × Nat}
    (h : plan.Refers (plan.twoFamilies (V := V) late) place parent) :
    parent.2 = place.2 % 2 := by
  obtain ⟨foreignKey, id, row, row', hcopies, hdeclares, hrow, hrow', -, heq⟩ := h
  obtain ⟨select, scan, references, owner, -, -, -, hdefinition, -⟩ := hcopies
  obtain ⟨token, htoken⟩ := hplan.base_of_declaresId hdeclares
  rw [twoFamilies_getElem? hrow, twoFamilies_getElem? hrow', familyRow_foreignKey hdefinition,
    familyRow_base htoken, ofNumber_inj] at heq
  omega

theorem Laid.mod_of_reflTransGen {place parent : T × Nat}
    (h : Relation.ReflTransGen (plan.Refers (plan.twoFamilies (V := V) late)) place parent) :
    parent.2 % 2 = place.2 % 2 := by
  induction h with
  | refl => rfl
  | tail _ hstep ih =>
      rw [hplan.refers_twoFamilies hstep, Nat.mod_mod, ih]

omit [DecidableEq T] in
/-- Rows at distinct positions make up a consistent database, if every table has the first row of
each family that occurs. -/
theorem Laid.consistent_familyRows (hids : whole.ParentsDeclareIds) {positions : T → List Nat}
    (hnodup : ∀ table, (positions table).Nodup)
    (hfirst : ∀ table parent, ∀ position ∈ positions table, position % 2 ∈ positions parent) :
    plan.Consistent fun table => (positions table).map (plan.familyRow (V := V)) where
  id_ne_none table id _ row hrow := by
    obtain ⟨position, -, rfl⟩ := List.mem_map.mp hrow
    rw [familyRow]
    split <;> simp
  id_nodup table id hid := by
    obtain ⟨token, htoken⟩ := hplan.base_of_declaresId hid
    rw [List.map_map]
    refine List.Nodup.map (fun first second h => ?_) (hnodup table)
    simp only [Function.comp_apply, familyRow_base htoken, ofNumber_inj] at h
    omega
  copy table foreignKey id hcopies row hrow := by
    obtain ⟨select, scan, references, owner, hscan, rfl, hmem, hdefinition, rfl⟩ := hcopies
    obtain ⟨position, hposition, rfl⟩ := List.mem_map.mp hrow
    rw [familyRow_foreignKey hdefinition]
    obtain ⟨spec, -, incoming, mark, next, -, hlaid, hdeclared⟩ :=
      hplan.exists_hasScan_of_scanAt hscan
    obtain ⟨source, hsource, heq⟩ := hlaid.foreignKeys.exists_source hmem
    obtain ⟨rfl, -⟩ : source = references ∧ mark.select = owner := by
      simpa using heq.symm.trans hdefinition
    obtain ⟨parent, hparent⟩ := hdeclared hids source hsource
    obtain ⟨token, htoken⟩ := hplan.base_of_declaresId hparent
    refine ⟨by simp, parent, hparent, plan.familyRow (position % 2), ?_, ?_⟩
    · exact List.mem_map_of_mem (hfirst _ parent position hposition)
    · rw [familyRow_base htoken]

theorem Laid.consistent_twoFamilies (hids : whole.ParentsDeclareIds) (late : T) :
    plan.Consistent (plan.twoFamilies (V := V) late) :=
  hplan.consistent_familyRows hids (fun _ => List.nodup_range) fun table parent position _ => by
    rw [List.mem_range]
    split <;> omega

end Consistency

end Plan

end FlatAggregate
