import FlatAggregate.Proofs.Lowering.References
import FlatAggregate.Proofs.Plan.Exposure

/-!
# The output names of queries

A level of a query lists the columns of a select under their labels. Where no token stands for two
columns, the labels of a select differ; and where a token stands for two columns, these have one
label and the outermost level lists both. So the output names are distinct at all levels if and only
if the tokens are distinct (`Lowering.Queried.nodup_iff_tokensDistinct`).
-/

namespace FlatAggregate

variable {T C : Type}

theorem Statement.mem_levels (statement : Statement) : statement ∈ statement.levels := by
  obtain ⟨items, source, joins, orderBy⟩ := statement
  rw [levels]
  exact List.mem_cons_self

theorem Statement.outputNames_eq {statement : Statement} {columns : List ColumnId}
    {label : ColumnId → String} (h : statement.items.map SelectItem.outputName =
      columns.map fun column => some (label column)) :
    statement.outputNames = columns.map label := by
  have hid : statement.outputNames = (statement.items.map SelectItem.outputName).filterMap id := by
    rw [List.filterMap_map]
    rfl
  rw [hid, h, List.filterMap_map]
  exact congrFun List.filterMap_eq_map columns

namespace Lowering

variable [DecidableEq T] [DecidableEq C] {names : NameSource T C} {plan : Plan T C}
  {book : AliasBook T C} {specs : List (TableSpec T C)} {whole : JoinTree T C} {top : Operand}
  {result : Statement}


/-- The output names of a query are distinct at all levels if and only if no token stands for two
columns of the plan. -/
theorem Queried.nodup_iff_tokensDistinct (h : Queried names plan book result)
    (hbook : book.Settled names plan) (hknows : names.Knows specs)
    (hplan : plan.Laid .parent whole [] ⟨0, 0⟩ plan.parts.mark top) (hspecs : whole.specs ⊆ specs)
    (hroot : plan.root = top.select) :
    (∀ level ∈ result.levels, level.outputNames.Nodup) ↔ plan.TokensDistinct := by
  have hnamed := named_root hknows hplan hspecs hroot
  constructor
  · intro hnodup column column' token hc hc'
    have hlabels : ((plan.columnsOf plan.root).map book.label).Nodup :=
      Statement.outputNames_eq h.outputNames ▸ hnodup result result.mem_levels
    -- the outermost level lists every base column
    have hshown : ∀ c, plan.columns[c]? = some (.base token) →
        ∃ shown ∈ plan.columnsOf plan.root, plan.canonical shown = c := fun c hc =>
      List.mem_map.mp ((hplan.mem_canonical_root_iff hroot).mpr ⟨_, hc, rfl⟩)
    obtain ⟨shown, hmem, heq⟩ := hshown column hc
    obtain ⟨shown', hmem', heq'⟩ := hshown column' hc'
    have hlabel : book.label shown = book.label shown' := by
      refine hbook.sound.alias_eq (AliasBook.find?_aliasAt (hbook.column _ (hnamed _ hmem)))
        (AliasBook.find?_aliasAt (hbook.column _ (hnamed _ hmem'))) ?_
      simp only [Plan.ownKey, heq, heq', hc, hc']
    rw [← heq, ← heq', List.inj_on_of_nodup_map hlabels hmem hmem' hlabel]
  · intro htokens level hlevel
    obtain ⟨select, hselect, hnamed, hnames⟩ := h.levels level hlevel
    rw [Statement.outputNames_eq hnames]
    exact hbook.nodup_labels htokens hnamed (hplan.nodup_canonical_columnsOf hselect)

end Lowering

namespace Draft

variable [DecidableEq T] [DecidableEq C] [ToString T] {root : TableSpec T C}
  {additions : List (Addition T C)} {draft : Draft T C} {plan : Plan T C} {names : NameSource T C}

/-- Whatever the settings, the query of an assembled aggregate has distinct output names at all of
its levels if and only if the tokens of its tables are distinct. -/
theorem exists_query_nodup_iff (h : assemble root additions = .ok draft)
    (hplan : draft.plan = .ok plan) (hknows : names.Knows (root :: additions.map Addition.spec))
    (settings : Settings) :
    ∃ statement book, (Lowering.query names plan).on { settings } = (.ok statement, book) ∧
      ((∀ level ∈ statement.levels, level.outputNames.Nodup) ↔
        ((root :: additions.map Addition.spec).flatMap TableSpec.tokens).Nodup) := by
  obtain ⟨top, hlaid, hroot, -, -⟩ := laid_of_assemble h hplan
  have hspecs := (specs_of_assemble h).subset
  obtain ⟨statement, book, later, hstatement, hlater, hqueried⟩ := Lowering.exists_query_eq hknows
    hlaid hspecs hroot (AliasBook.sound_empty plan settings)
  refine ⟨statement, book, hstatement, ?_⟩
  rw [← tokensDistinct_iff_of_assemble h hplan]
  exact hqueried.nodup_iff_tokensDistinct hlater hknows hlaid hspecs hroot

end Draft

end FlatAggregate
