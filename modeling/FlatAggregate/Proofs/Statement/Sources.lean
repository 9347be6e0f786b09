import FlatAggregate.Proofs.Statement.Resolution

/-!
# The sources of a statement

The sources of all levels of a statement are the tables and inline queries of its text. The text
lists them with each inline query behind the sources that it contains (`Statement.allSources`).

So what is counted over the levels is counted over the text, only in another order
(`Statement.perm_allSources`).
-/

namespace FlatAggregate

def Source.table? : Source → Option (String × String)
  | .table name aliasName => some (name, aliasName)
  | .subquery _ _ => none

mutual

/-- The sources of a statement and of all inline queries in it, in the order in which its text
closes them. -/
def Statement.allSources : Statement → List Source
  | ⟨_, source, joins, _⟩ => source.within ++ Join.within joins

def Source.within : Source → List Source
  | .table name aliasName => [.table name aliasName]
  | .subquery query aliasName => query.allSources ++ [.subquery query aliasName]

def Join.within : List Join → List Source
  | [] => []
  | ⟨source, _, _⟩ :: rest => source.within ++ Join.within rest

end

/-- The sources of a level, with those of the levels below it, are what the first of them contains
and what the others contain. -/
theorem Join.perm_cons {source : Source} {joins : List Join}
    (hsource : (source :: source.levels.flatMap Statement.sources).Perm source.within)
    (hjoins : (joins.map Join.source ++ (Join.levels joins).flatMap Statement.sources).Perm
      (Join.within joins)) :
    (source :: joins.map Join.source ++
        (source.levels ++ Join.levels joins).flatMap Statement.sources).Perm
      (source.within ++ Join.within joins) := by
  have hswap : (joins.map Join.source ++ source.levels.flatMap Statement.sources).Perm
      (source.levels.flatMap Statement.sources ++ joins.map Join.source) := List.perm_append_comm
  refine .trans ?_ (hsource.append hjoins)
  rw [List.flatMap_append, List.cons_append, List.cons_append]
  exact .cons _ (by simpa only [List.append_assoc] using hswap.append_right _)

mutual

theorem Statement.perm_allSources (statement : Statement) :
    (statement.levels.flatMap Statement.sources).Perm statement.allSources := by
  obtain ⟨items, source, joins, orderBy⟩ := statement
  rw [Statement.levels, Statement.allSources, List.flatMap_cons]
  exact Join.perm_cons (Source.perm_within source) (Join.perm_within joins)

theorem Source.perm_within (source : Source) :
    (source :: source.levels.flatMap Statement.sources).Perm source.within := by
  cases source with
  | table => exact .refl _
  | subquery query aliasName =>
      rw [Source.levels, Source.within]
      exact ((Statement.perm_allSources query).cons _).trans (List.perm_append_singleton _ _).symm

theorem Join.perm_within (joins : List Join) :
    (joins.map Join.source ++ (Join.levels joins).flatMap Statement.sources).Perm
      (Join.within joins) := by
  match joins with
  | [] => exact .refl _
  | ⟨source, _, _⟩ :: rest =>
      rw [Join.levels, Join.within]
      exact Join.perm_cons (Source.perm_within source) (Join.perm_within rest)

end

end FlatAggregate
