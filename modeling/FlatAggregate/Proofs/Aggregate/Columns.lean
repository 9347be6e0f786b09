import FlatAggregate.Aggregate.Schema
import FlatAggregate.Proofs.Plan.Layout
import Mathlib.Data.List.Nodup

/-!
# The columns that an entity declares

The table of an entity takes a plain column once that is declared twice. The id and the key are
columns of their own: the tokens of the table are distinct only if the entity declares no column in
two of these roles (`Mapping.nodup_tokens_iff`).

Without the plain columns that repeat each other, a column in two roles is the only way to declare
it twice: `Mapping.RolesDistinct` says that no column is an id and a plain column, a plain column
and a key, or an id and a key.
-/

namespace FlatAggregate

namespace TableSpec

variable {T C : Type} [DecidableEq C]

theorem columns_withColumns_singleton (spec : TableSpec T C) (column : C) :
    (spec.withColumns [column]).columns =
      if column ∈ spec.columns then spec.columns else spec.columns ++ [column] := rfl

theorem withColumns_cons (spec : TableSpec T C) (column : C) (columns : List C) :
    spec.withColumns (column :: columns) = (spec.withColumns [column]).withColumns columns :=
  withColumns_append spec [column] columns

theorem mem_columns_withColumns {spec : TableSpec T C} {columns : List C} {column : C} :
    column ∈ (spec.withColumns columns).columns ↔ column ∈ spec.columns ∨ column ∈ columns := by
  induction columns generalizing spec with
  | nil => simp
  | cons first rest ih =>
      rw [withColumns_cons, ih, columns_withColumns_singleton, List.mem_cons]
      split
      · rename_i hmem
        constructor
        · exact fun h => h.imp_right .inr
        · rintro (h | rfl | h)
          · exact .inl h
          · exact .inl hmem
          · exact .inr h
      · rw [List.mem_append, List.mem_singleton, or_assoc]

theorem nodup_columns_withColumns {spec : TableSpec T C} {columns : List C}
    (h : spec.columns.Nodup) : (spec.withColumns columns).columns.Nodup := by
  induction columns generalizing spec with
  | nil => exact h
  | cons first rest ih =>
      rw [withColumns_cons]
      refine ih ?_
      rw [columns_withColumns_singleton]
      split
      · exact h
      · exact List.concat_eq_append ▸ List.Nodup.concat ‹_› h

omit [DecidableEq C] in
/-- Where the plain columns differ, only a column in two roles makes a token occur twice. -/
theorem nodup_tokens_iff {spec : TableSpec T C} (h : spec.columns.Nodup) :
    spec.tokens.Nodup ↔
      (∀ column, spec.id = some column → column ∉ spec.columns ∧ spec.key ≠ some column) ∧
        ∀ column, spec.key = some column → column ∉ spec.columns := by
  have hlast : ∀ (columns : List C) (key : C),
      (columns ++ [key]).Nodup ↔ key ∉ columns ∧ columns.Nodup := fun columns key => by
    rw [List.nodup_middle, List.append_nil, List.nodup_cons]
  rw [tokens]
  cases spec.id with
  | none => cases spec.key <;> simp [hlast, h]
  | some id =>
    cases spec.key with
    | none => simp [h]
    | some key =>
      simp only [Option.toList_some, List.cons_append, List.nil_append, List.nodup_cons,
        List.mem_append, List.mem_singleton, not_or, hlast, h, and_true, Option.some.injEq,
        ne_eq, forall_eq']
      tauto

end TableSpec

namespace Mapping

variable {mapping : Mapping} {column : ColumnRef}

@[simp] theorem table_spec (mapping : Mapping) : mapping.spec.table = mapping.path := rfl

/-- An entity declares no column in two roles, as its id, as a plain column and as its key. -/
structure RolesDistinct (mapping : Mapping) : Prop where
  id : ∀ column, mapping.idColumn = some column →
    column ∉ mapping.columns ∧ mapping.keyColumn ≠ some column
  key : ∀ column, mapping.keyColumn = some column → column ∉ mapping.columns

theorem ref_injective (mapping : Mapping) : Function.Injective mapping.ref :=
  fun _ _ h => congrArg ColumnRef.column h

theorem mem_columns_spec : column ∈ mapping.spec.columns ↔ column ∈ mapping.refs := by
  rw [spec, TableSpec.mem_columns_withColumns]
  simp

theorem ref_mem_columns_spec {name : String} :
    mapping.ref name ∈ mapping.spec.columns ↔ name ∈ mapping.columns := by
  rw [mem_columns_spec, refs, List.mem_map_of_injective mapping.ref_injective]

/-- The columns of the table of an entity are columns of that entity. -/
theorem entity_of_mem_tokens (h : column ∈ mapping.spec.tokens) : column.entity = mapping.path := by
  simp only [TableSpec.tokens, List.mem_append, Option.mem_toList] at h
  rcases h with (h | h) | h
  · obtain ⟨name, -, rfl⟩ := Option.map_eq_some_iff.mp h
    rfl
  · obtain ⟨name, -, rfl⟩ := List.mem_map.mp (mem_columns_spec.mp h)
    rfl
  · obtain ⟨name, -, rfl⟩ := Option.map_eq_some_iff.mp h
    rfl

/-- The tokens of a table are distinct if and only if its entity declares no column in two roles. -/
theorem nodup_tokens_iff (mapping : Mapping) :
    mapping.spec.tokens.Nodup ↔ mapping.RolesDistinct := by
  have hcolumns : mapping.spec.columns.Nodup :=
    TableSpec.nodup_columns_withColumns List.nodup_nil
  have hid : mapping.spec.id = mapping.idColumn.map mapping.ref := rfl
  have hkey : mapping.spec.key = mapping.keyColumn.map mapping.ref := rfl
  rw [TableSpec.nodup_tokens_iff hcolumns, hid, hkey]
  constructor
  · rintro ⟨h, h'⟩
    refine ⟨fun name hname => ?_, fun name hname => ?_⟩
    · have hroles := h (mapping.ref name) (by rw [hname]; rfl)
      rw [ref_mem_columns_spec] at hroles
      exact ⟨hroles.1, fun hkey => hroles.2 (by rw [hkey]; rfl)⟩
    · exact fun hmem => h' (mapping.ref name) (by rw [hname]; rfl) (ref_mem_columns_spec.mpr hmem)
  · rintro ⟨h, h'⟩
    simp only [Option.map_eq_some_iff, ne_eq]
    constructor
    · rintro _ ⟨name, hname, rfl⟩
      obtain ⟨hcolumn, hkey⟩ := h name hname
      refine ⟨fun hmem => hcolumn (ref_mem_columns_spec.mp hmem), ?_⟩
      rintro ⟨name', hname', heq⟩
      exact hkey (mapping.ref_injective heq ▸ hname')
    · rintro _ ⟨name, hname, rfl⟩ hmem
      exact h' name hname (ref_mem_columns_spec.mp hmem)

instance (mapping : Mapping) : Decidable mapping.RolesDistinct :=
  decidable_of_iff _ mapping.nodup_tokens_iff

end Mapping

end FlatAggregate
