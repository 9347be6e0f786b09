import FlatAggregate.Proofs.Plan.Selects
import FlatAggregate.Proofs.Rows.Joining
import Mathlib.Logic.Relation

/-!
# The lineage of rows

In a consistent database ids are unique and every foreign key is the id of a row. So a row refers to
a row of the parent table, that one to a row of its parent table, and so on: it belongs to one row
of every table above its own.

A row of a select belongs to a table row when all the rows that it is made of do.

`Plan.Consistent` speaks of the columns of the plan that are ids and foreign keys, and of no others.
-/

namespace FlatAggregate.Plan

variable {T C V : Type}

/-- Ids are there and unique, and every foreign key is there and is the id of a row. -/
structure Consistent (plan : Plan T C) (db : Database T V) : Prop where
  id_ne_none : ∀ table id, plan.DeclaresId table id → ∀ row ∈ db table, row id ≠ none
  id_nodup : ∀ table id, plan.DeclaresId table id → ((db table).map (· id)).Nodup
  copy : ∀ table foreignKey id, plan.Copies table foreignKey id → ∀ row ∈ db table,
    row foreignKey ≠ none ∧
      ∃ parent, plan.DeclaresId parent id ∧ ∃ row' ∈ db parent, row' id = row foreignKey

/-- The row at a place refers to the one whose id it stores. A place is a table and a position. -/
def Refers (plan : Plan T C) (db : Database T V) (place parent : T × Nat) : Prop :=
  ∃ foreignKey id row row', plan.Copies place.1 foreignKey id ∧ plan.DeclaresId parent.1 id ∧
    (db place.1)[place.2]? = some row ∧ (db parent.1)[parent.2]? = some row' ∧
    row foreignKey ≠ none ∧ row' id = row foreignKey

/-- A row of a select is made of table rows, all of which are the row at a place or refer to it,
directly or through others. -/
def BelongsTo (plan : Plan T C) (db : Database T V) (row : Tuple T V) (place : T × Nat) : Prop :=
  (∃ table position, row.source table = some position) ∧
    ∀ table position, row.source table = some position →
      Relation.ReflTransGen (plan.Refers db) (table, position) place

variable {plan : Plan T C} {db : Database T V}

theorem Consistent.position_unique (h : plan.Consistent db) {table : T} {id : ColumnId}
    (hid : plan.DeclaresId table id) {position position' : Nat} {row row' : ColumnId → Option V}
    (hrow : (db table)[position]? = some row) (hrow' : (db table)[position']? = some row')
    (heq : row id = row' id) : position = position' := by
  have hlt : position < ((db table).map (· id)).length := by
    rw [List.length_map]
    exact (List.getElem?_eq_some_iff.mp hrow).1
  exact (List.getElem?_inj hlt (h.id_nodup table id hid)).mp (by simp [hrow, hrow', heq])

theorem BelongsTo.trans {row : Tuple T V} {place parent : T × Nat}
    (h : plan.BelongsTo db row place) (hparent : plan.Refers db place parent) :
    plan.BelongsTo db row parent :=
  ⟨h.1, fun table position hsource => (h.2 table position hsource).tail hparent⟩

/-- The rows of both sides of a pair belong where the row of the pair does. -/
theorem belongsTo_merge {pair : Option (Tuple T V) × Option (Tuple T V)} {place : T × Nat}
    (hsome : pair ≠ (none, none)) (hleft : ∀ row, pair.1 = some row → plan.BelongsTo db row place)
    (hright : ∀ row, pair.2 = some row → plan.BelongsTo db row place) :
    plan.BelongsTo db (Tuple.merge pair) place := by
  obtain ⟨left, right⟩ := pair
  constructor
  · cases left with
    | some row =>
        obtain ⟨table, position, hsource⟩ := (hleft row rfl).1
        exact ⟨table, position, by simp [Tuple.source_merge, hsource]⟩
    | none =>
        cases right with
        | some row =>
            obtain ⟨table, position, hsource⟩ := (hright row rfl).1
            exact ⟨table, position, by simp [Tuple.source_merge, hsource]⟩
        | none => exact absurd rfl hsome
  · intro table position hsource
    rw [Tuple.source_merge, Option.or_eq_some_iff] at hsource
    rcases hsource with hsource | ⟨-, hsource⟩
    · obtain ⟨row, hrow, hsource⟩ := Option.bind_eq_some_iff.mp hsource
      exact (hleft row hrow).2 table position hsource
    · obtain ⟨row, hrow, hsource⟩ := Option.bind_eq_some_iff.mp hsource
      exact (hright row hrow).2 table position hsource

theorem belongsTo_of_source [DecidableEq T] {row : Tuple T V} {scan : TableScan T} {position : Nat}
    {own : ColumnId → Option V} (h : row.source = (scanRow (V := V) scan position own).source) :
    plan.BelongsTo db row (scan.table, position) := by
  have hsource : ∀ table, row.source table = if table = scan.table then some position else none :=
    fun table => by rw [h]; rfl
  constructor
  · exact ⟨scan.table, position, by rw [hsource, if_pos rfl]⟩
  · intro table other heq
    rw [hsource] at heq
    split at heq
    · obtain rfl := Option.some.inj heq
      subst table
      exact .refl
    · cases heq

end FlatAggregate.Plan
