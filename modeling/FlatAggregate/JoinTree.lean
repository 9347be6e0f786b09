import FlatAggregate.TableSpec

/-!
# Join trees

A join tree lists the tables of an aggregate as the leaves of binary joins. A join belongs to the
table whose child it attaches, its owner, which is also the left-most table of its parent side. So
the joins of one table form a spine above its leaf, one join per child.

`rootSpec` is the specification of the left-most table, and `specs` and `tables` list all of them
from left to right, which is the order in which a plan has their scans. A `JoinTreeError` says why a
table, or a whole aggregate, is refused. The multiplicity of a join, one to one or one to many, is
handed on to the plan for those who read it there; nothing here asks for it.
-/

namespace FlatAggregate

inductive Multiplicity where
  /-- One to one. -/
  | single
  /-- One to many. -/
  | multiple
  deriving DecidableEq, Repr

inductive JoinTree (T C : Type) where
  | table (spec : TableSpec T C)
  | join (parent child : JoinTree T C) (multiplicity : Multiplicity) (owner : T)
  deriving DecidableEq, Repr

namespace JoinTree

variable {T C : Type}

/-- The table a tree belongs to: the table of a leaf, the owner of a join. -/
def owner : JoinTree T C → T
  | table spec => spec.table
  | join _ _ _ owner => owner

def rootSpec : JoinTree T C → TableSpec T C
  | table spec => spec
  | join parent _ _ _ => parent.rootSpec

def specs : JoinTree T C → List (TableSpec T C)
  | table spec => [spec]
  | join parent child _ _ => parent.specs ++ child.specs

def tables (tree : JoinTree T C) : List T :=
  tree.specs.map TableSpec.table

@[simp] theorem tables_table (spec : TableSpec T C) : (table spec).tables = [spec.table] := rfl

@[simp] theorem tables_join (parent child : JoinTree T C) (m : Multiplicity) (o : T) :
    (join parent child m o).tables = parent.tables ++ child.tables := by
  simp [tables, specs]

theorem mem_specs_table {spec : TableSpec T C} : spec ∈ (table spec).specs := by
  simp [specs]

theorem rootSpec_mem_specs (tree : JoinTree T C) : tree.rootSpec ∈ tree.specs := by
  induction tree with
  | table spec => simp [rootSpec, specs]
  | join parent child m o ihp ihc => simp [rootSpec, specs, ihp]

end JoinTree

inductive JoinTreeError where
  | missingRoot
  | rootAlreadyDefined (root : String)
  | unknownTable (table : String)
  | duplicateTable (table : String)
  | missingIdentity (table : String)
  deriving DecidableEq, Repr

def JoinTreeError.message : JoinTreeError → String
  | missingRoot => "No root table. add_table must be called before adding children."
  | rootAlreadyDefined root => "Root table already defined as " ++ root
  | unknownTable table => "Unknown table " ++ table
  | duplicateTable table => "Table " ++ table ++ " is already part of the structure"
  | missingIdentity table =>
    "Table " ++ table ++ " has neither id nor key column and can't have further children"

end FlatAggregate
