import FlatAggregate.Proofs.Rows.Families

/-!
# The rows of two families

Every tree reads a database of two families as one row per family, and two strays more if it has the
table with the second rows. This is an induction over the layout: a join pairs the rows of a family
and leaves the strays of either side alone.
-/

namespace FlatAggregate.Plan

variable {T C V : Type} [Domain V] {plan : Plan T C}

/-- The row of a family: its number is what ids and foreign keys have on it. -/
structure InFamily (plan : Plan T C) (operand : Operand) (family : Int) (row : Tuple T V) :
    Prop where
  id : ∀ column ∈ operand.id, plan.read row column = ofNumber family
  foreignKey : ∀ column ∈ operand.foreignKeys, plan.read row column = ofNumber family
  rowNumber : plan.read row operand.rowNumber = ofNumber 1

/-- A row made of one row of `table` alone, with the given number in its foreign keys. On the parent
side of a join it has no id. -/
structure IsStray [DecidableEq T] (plan : Plan T C) (side : Side) (operand : Operand) (table : T)
    (position : Nat) (shown : Int) (row : Tuple T V) : Prop where
  source : ∀ t, row.source t = if t = table then some position else none
  id : side = .parent → ∀ column ∈ operand.id, plan.read row column = none
  foreignKey : ∀ column ∈ operand.foreignKeys, plan.read row column = ofNumber shown
  rowNumber : plan.read row operand.rowNumber = ofNumber 2

section Keys

theorem rank_two {K : Type} [DecidableEq K] {x y : K} (h : x ≠ y) :
    rank [x, y] 0 x = 1 ∧ rank [x, y] 1 y = 1 := by
  simp [rank, h]

theorem rank_four {K : Type} [DecidableEq K] {x y : K} (h : x ≠ y) :
    rank [x, y, x, y] 0 x = 1 ∧ rank [x, y, x, y] 1 y = 1 ∧ rank [x, y, x, y] 2 x = 2 ∧
      rank [x, y, x, y] 3 y = 2 := by
  simp [rank, h, h.symm]

theorem number_one_lt_two : Domain.number (V := V) 1 < Domain.number 2 :=
  Domain.number_lt (by decide)

/-- The keys of the two families differ. -/
theorem replicate_ne {n : Nat} (hn : n ≠ 0) :
    List.replicate n (ofNumber (V := V) 1) ≠ List.replicate n (ofNumber 2) := by
  intro h
  have heq := (List.replicate_inj.mp h).2.resolve_left hn
  rw [ofNumber_inj] at heq
  omega

/-- With one row per family every row keeps its foreign key. -/
theorem spread_families {family : Int} (hfamily : family = 1 ∨ family = 2) :
    spread [ofNumber (V := V) 1, ofNumber 2] [ofNumber (V := V) 1, ofNumber 2] (ofNumber family) =
      ofNumber family := by
  have hne := (number_one_lt_two (V := V)).ne
  rcases hfamily with rfl | rfl
  · exact greatest_eq_of_forall (by simp [hne.symm]) (by simp [hne.symm])
  · exact greatest_eq_of_forall (by simp [hne]) (by simp [hne])

theorem spread_left_strays {shownKey family : Int} (hfamily : family = 1 ∨ family = 2) :
    spread [ofNumber (V := V) 1, ofNumber 2, none, none]
        [ofNumber (V := V) 1, ofNumber 2, ofNumber shownKey, ofNumber 2] (ofNumber family) =
      ofNumber family := by
  have hne := (number_one_lt_two (V := V)).ne
  rcases hfamily with rfl | rfl
  · exact greatest_eq_of_forall (by simp [hne.symm]) (by simp [hne.symm])
  · exact greatest_eq_of_forall (by simp [hne]) (by simp [hne])

/-- Strays without identity make up one group, in which the foreign key of the second family
wins. -/
theorem spread_left_strays_none {shownKey : Int} (hshown : shownKey = 1 ∨ shownKey = 2) :
    spread [ofNumber (V := V) 1, ofNumber 2, none, none]
        [ofNumber (V := V) 1, ofNumber 2, ofNumber shownKey, ofNumber 2] none = ofNumber 2 := by
  have hle := (number_one_lt_two (V := V)).le
  refine greatest_eq_some_iff.mpr ⟨by simp, ?_⟩
  rcases hshown with rfl | rfl <;> simp [hle]

/-- Strays that are identified by their foreign keys fall into the groups of the families. -/
theorem spread_right_strays {shownKey family : Int} (hshown : shownKey = 1 ∨ shownKey = 2)
    (hfamily : family = 1 ∨ family = 2) :
    spread [ofNumber (V := V) 1, ofNumber 2, ofNumber shownKey, ofNumber 2]
        [ofNumber (V := V) 1, ofNumber 2, none, none] (ofNumber family) =
      ofNumber family := by
  have hne := (number_one_lt_two (V := V)).ne
  rcases hshown with rfl | rfl <;> rcases hfamily with rfl | rfl <;>
    exact greatest_eq_of_forall (by simp [hne, hne.symm]) (by simp [hne, hne.symm])

end Keys

section Scans

variable [DecidableEq T] {spec : TableSpec T C} {incoming : List ColumnId} {mark : Mark}
  {next : Nat} {scan : TableScan T} {late : T}

omit [DecidableEq T] in
theorem HasScan.read_foreignKey (hscan : plan.HasScan spec incoming mark next scan)
    (position : Nat) {column : ColumnId} (hc : column ∈ scan.foreignKeys) :
    plan.familyRow (V := V) position column = ofNumber ((position % 2 : Nat) + 1) := by
  obtain ⟨references, -, heq⟩ := hscan.foreignKeys.exists_source hc
  exact familyRow_foreignKey heq position

omit [DecidableEq T] in
/-- On the first row of a family all columns are the number of the family. -/
theorem HasScan.read_first (hscan : plan.HasScan spec incoming mark next scan) {position : Nat}
    (hlt : position < 2) {column : ColumnId} (hc : column ∈ scan.allColumns) :
    plan.familyRow (V := V) position column = ofNumber (position + 1) := by
  rcases hscan.stored hc with ⟨token, -, htoken⟩ | ⟨references, -, hmem, -⟩
  · exact familyRow_base htoken position
  · rw [hscan.read_foreignKey position hmem, Nat.mod_eq_of_lt hlt]

theorem HasScan.inFamily (hscan : plan.HasScan spec incoming mark next scan) {position : Nat}
    (hlt : position < 2) :
    plan.InFamily (V := V) (scan.operand mark.select) (position + 1)
      (scanRow scan position (plan.familyRow position)) where
  id column hc := by
    have hmem := scan.idColumns_subset hc
    rw [hscan.read_scanRow _ _ hmem, hscan.read_first hlt hmem]
  foreignKey column hc := by
    have hmem := scan.foreignKeys_subset hc
    rw [hscan.read_scanRow _ _ hmem, hscan.read_first hlt hmem]
  rowNumber := by
    have hrowNumber := hscan.rowNumber
    have hcanonical : plan.canonical scan.rowNumber = scan.rowNumber :=
      canonical_of_ne hrowNumber (by simp)
    have hliteral : plan.columns[plan.canonical (scan.operand mark.select).rowNumber]? =
        some (.literal 1) := by rw [TableScan.operand, hcanonical, hrowNumber]
    exact read_of_literal hliteral

theorem scanRows_twoFamilies (hne : scan.table ≠ late) :
    scanRows (plan.twoFamilies (V := V) late) scan =
      [scanRow scan 0 (plan.familyRow 0), scanRow scan 1 (plan.familyRow 1)] := by
  rw [scanRows, twoFamilies, if_neg hne]
  rfl

theorem scanRows_twoFamilies_late (heq : scan.table = late) :
    scanRows (plan.twoFamilies (V := V) late) scan =
      [scanRow scan 0 (plan.familyRow 0), scanRow scan 1 (plan.familyRow 1),
        scanRow scan 2 (plan.familyRow 2), scanRow scan 3 (plan.familyRow 3)] := by
  rw [scanRows, twoFamilies, if_pos heq]
  rfl

/-- The foreign keys of a row of a scan are the number of its family, one for every incoming
column. -/
theorem HasScan.reads_foreignKeys (hscan : plan.HasScan spec incoming mark next scan)
    (position : Nat) :
    plan.reads scan.foreignKeys (scanRow scan position (plan.familyRow (V := V) position)) =
      List.replicate incoming.length (ofNumber ((position % 2 : Nat) + 1)) := by
  have hlength : scan.foreignKeys.length = incoming.length :=
    (List.Forall₂.length_eq hscan.foreignKeys).trans (List.length_map _)
  rw [← hlength, reads, List.map_eq_replicate_iff]
  intro column hc
  rw [hscan.read_scanRow _ _ (scan.foreignKeys_subset hc), hscan.read_foreignKey position hc]

end Scans

section Views

variable [DecidableEq T] {spec : TableSpec T C} {incoming : List ColumnId} {mark : Mark}
  {next : Nat} {scan : TableScan T} {late : T}
  (hscan : plan.HasScan spec incoming mark next scan)
  (hview : plan.selects[mark.select + 1]? = some (.view mark.select next))
  (hrowNumber : plan.columns[next]? = some (.rowNumber scan.foreignKeys))
  (hincoming : incoming ≠ [])

include hscan

theorem HasScan.inFamily_numbered {position : Nat} (hlt : position < 2)
    {value : ColumnId → Option V}
    (hvalue : plan.read ((scanRow scan position (plan.familyRow position)).withValues [next] value)
      next = ofNumber 1) :
    plan.InFamily (scan.viewOperand (mark.select + 1) next) (position + 1)
      ((scanRow scan position (plan.familyRow position)).withValues [next] value) where
  id column hc := by
    have hmem := scan.idColumns_subset hc
    rw [hscan.read_numbered _ _ _ hmem, hscan.read_first hlt hmem]
  foreignKey column hc := by
    have hmem := scan.foreignKeys_subset hc
    rw [hscan.read_numbered _ _ _ hmem, hscan.read_first hlt hmem]
  rowNumber := hvalue

theorem HasScan.isStray_numbered (position : Nat) {value : ColumnId → Option V}
    (hvalue : plan.read ((scanRow scan position (plan.familyRow position)).withValues [next] value)
      next = ofNumber 2) :
    plan.IsStray .child (scan.viewOperand (mark.select + 1) next) scan.table position
      ((position % 2 : Nat) + 1)
      ((scanRow scan position (plan.familyRow position)).withValues [next] value) where
  source table := rfl
  id h := by cases h
  foreignKey column hc := by
    rw [hscan.read_numbered _ _ _ (scan.foreignKeys_subset hc), hscan.read_foreignKey position hc]
  rowNumber := hvalue

include hview hrowNumber hincoming

theorem HasScan.rows_view_twoFamilies (hne : scan.table ≠ late) :
    ∃ first second, plan.rows (plan.twoFamilies (V := V) late) (mark.select + 1) = [first, second] ∧
      plan.InFamily (scan.viewOperand (mark.select + 1) next) 1 first ∧
      plan.InFamily (scan.viewOperand (mark.select + 1) next) 2 second := by
  have hkeys := hscan.reads_foreignKeys (V := V)
  have hrank := rank_two (replicate_ne (V := V) (List.length_pos_of_ne_nil hincoming).ne')
  rw [rows_view hview (Nat.lt_succ_self _), rows_scan hscan.select, scanRows_twoFamilies hne]
  refine ⟨_, _, rfl, hscan.inFamily_numbered (by omega) ?_, hscan.inFamily_numbered (by omega) ?_⟩
  · rw [read_rowNumber hrowNumber]
    simp only [List.map_cons, List.map_nil, hkeys]
    exact congrArg (fun n : Nat => ofNumber n) hrank.1
  · rw [read_rowNumber hrowNumber]
    simp only [List.map_cons, List.map_nil, hkeys]
    exact congrArg (fun n : Nat => ofNumber n) hrank.2

theorem HasScan.rows_view_twoFamilies_late (heq : scan.table = late) :
    ∃ first second third fourth,
      plan.rows (plan.twoFamilies (V := V) late) (mark.select + 1) =
        [first, second, third, fourth] ∧
      plan.InFamily (scan.viewOperand (mark.select + 1) next) 1 first ∧
      plan.InFamily (scan.viewOperand (mark.select + 1) next) 2 second ∧
      plan.IsStray .child (scan.viewOperand (mark.select + 1) next) late 2 1 third ∧
      plan.IsStray .child (scan.viewOperand (mark.select + 1) next) late 3 2 fourth := by
  have hkeys := hscan.reads_foreignKeys (V := V)
  have hrank := rank_four (replicate_ne (V := V) (List.length_pos_of_ne_nil hincoming).ne')
  rw [rows_view hview (Nat.lt_succ_self _), rows_scan hscan.select, scanRows_twoFamilies_late heq,
    ← heq]
  refine ⟨_, _, _, _, rfl, hscan.inFamily_numbered (by omega) ?_,
    hscan.inFamily_numbered (by omega) ?_, hscan.isStray_numbered 2 ?_,
    hscan.isStray_numbered 3 ?_⟩
  all_goals
    rw [read_rowNumber hrowNumber]
    simp only [List.map_cons, List.map_nil, hkeys]
  · exact congrArg (fun n : Nat => ofNumber n) hrank.1
  · exact congrArg (fun n : Nat => ofNumber n) hrank.2.1
  · exact congrArg (fun n : Nat => ofNumber n) hrank.2.2.1
  · exact congrArg (fun n : Nat => ofNumber n) hrank.2.2.2

end Views

section Pairings

variable {α β : Type} {on : α → β → Bool} {a a' s s' : α} {b b' t t' : β}

theorem fullOuter_families (h : on a b) (h' : on a' b') (hn : ¬on a b') (hn' : ¬on a' b) :
    fullOuter on [a, a'] [b, b'] = [(some a, some b), (some a', some b')] := by
  simp [fullOuter, withPartners, h, h', hn, hn']

theorem fullOuter_left_strays (h : on a b) (h' : on a' b') (hn : ¬on a b') (hn' : ¬on a' b)
    (hs : ∀ y ∈ [b, b'], ¬on s y) (hs' : ∀ y ∈ [b, b'], ¬on s' y) :
    fullOuter on [a, a', s, s'] [b, b'] =
      [(some a, some b), (some a', some b'), (some s, none), (some s', none)] := by
  simp only [List.forall_mem_cons, List.not_mem_nil, false_imp_iff, implies_true, and_true]
    at hs hs'
  simp [fullOuter, withPartners, h, h', hn, hn', hs, hs']

theorem fullOuter_right_strays (h : on a b) (h' : on a' b') (hn : ¬on a b') (hn' : ¬on a' b)
    (ht : ∀ x ∈ [a, a'], ¬on x t) (ht' : ∀ x ∈ [a, a'], ¬on x t') :
    fullOuter on [a, a'] [b, b', t, t'] =
      [(some a, some b), (some a', some b'), (none, some t), (none, some t')] := by
  simp only [List.forall_mem_cons, List.not_mem_nil, false_imp_iff, implies_true, and_true]
    at ht ht'
  simp [fullOuter, withPartners, h, h', hn, hn', ht, ht']

end Pairings

/-- What a pair has in the columns that a join computes with: `key` where the identity is compared,
`value` in the foreign keys of the parent side, `id` in its ids, and a row number. -/
structure PairShows (plan : Plan T C) (parent child : Operand) (key value id : Option V)
    (number : Int) (pair : Option (Tuple T V) × Option (Tuple T V)) : Prop where
  key : plan.pairKey (parent.id.zip child.foreignKeys) pair = List.replicate parent.id.length key
  value : ∀ source ∈ parent.foreignKeys, plan.read (Tuple.merge pair) source = value
  id : ∀ column ∈ parent.id, plan.read (Tuple.merge pair) column = id
  rowNumber : greatest [plan.read (Tuple.merge pair) parent.rowNumber,
    plan.read (Tuple.merge pair) child.rowNumber] = ofNumber number

section Joins

variable [DecidableEq T] {left right : JoinTree T C} {incoming shown : List ColumnId}
  {first middle last : Mark} {next : Nat} {parent child : Operand} {multiplicity : Multiplicity}
  {join : PlanJoin} {late : T} {position : Nat}
  (hparent : plan.Laid .parent left incoming first middle parent)
  (hchild : plan.Laid .child right parent.id middle last child)

omit [DecidableEq T] in
include hchild in
theorem Laid.pairKey_eq {pair : Option (Tuple T V) × Option (Tuple T V)} {key : Option V}
    (h : ∀ l ∈ parent.id, ∀ r ∈ child.foreignKeys,
      greatest [plan.read (Tuple.merge pair) l, plan.read (Tuple.merge pair) r] = key) :
    plan.pairKey (parent.id.zip child.foreignKeys) pair =
      List.replicate parent.id.length key := by
  have hlength : (parent.id.zip child.foreignKeys).length = parent.id.length := by
    rw [List.length_zip, hchild.length_foreignKeys, Nat.min_self]
  rw [← hlength, pairKey, List.map_eq_replicate_iff]
  intro compared hc
  obtain ⟨hl, hr⟩ := List.of_mem_zip hc
  exact h compared.1 hl compared.2 hr

include hparent hchild

omit [DecidableEq T] in
theorem Laid.shows_family {a b : Tuple T V} {family : Int}
    (hsides : SidesWithin first middle last (some a, some b))
    (ha : plan.InFamily parent family a) (hb : plan.InFamily child family b) :
    plan.PairShows parent child (ofNumber family) (ofNumber family)
      (ofNumber family) 1 (some a, some b) where
  key := hchild.pairKey_eq fun l hl r hr => by
    rw [hparent.read_parent hsides (by simp [hl]), hchild.read_child hsides (by simp [hr]),
      Option.bind_some, Option.bind_some, ha.id l hl, hb.foreignKey r hr, greatest_same]
  value source hs := by
    rw [hparent.read_parent hsides (by simp [hs]), Option.bind_some, ha.foreignKey source hs]
  id column hc := by
    rw [hparent.read_parent hsides (by simp [hc]), Option.bind_some, ha.id column hc]
  rowNumber := by
    rw [hparent.read_parent_rowNumber hsides, hchild.read_child_rowNumber hsides,
      Option.bind_some, ha.rowNumber, hb.rowNumber, greatest_same]

theorem Laid.shows_left_stray {a : Tuple T V} {shownKey : Int}
    (hsides : SidesWithin first middle last (some a, none))
    (ha : plan.IsStray .parent parent late position shownKey a) :
    plan.PairShows parent child none (ofNumber shownKey) none 2 (some a, none) where
  key := hchild.pairKey_eq fun l hl r hr => by
    rw [hparent.read_parent hsides (by simp [hl]), hchild.read_child hsides (by simp [hr]),
      Option.bind_some, Option.bind_none, ha.id rfl l hl, greatest_same]
  value source hs := by
    rw [hparent.read_parent hsides (by simp [hs]), Option.bind_some, ha.foreignKey source hs]
  id column hc := by
    rw [hparent.read_parent hsides (by simp [hc]), Option.bind_some, ha.id rfl column hc]
  rowNumber := by
    rw [hparent.read_parent_rowNumber hsides, hchild.read_child_rowNumber hsides,
      Option.bind_none, ha.rowNumber, greatest_none_right]

theorem Laid.shows_right_stray {b : Tuple T V} {shownKey : Int}
    (hsides : SidesWithin first middle last (none, some b))
    (hb : plan.IsStray .child child late position shownKey b) :
    plan.PairShows parent child (ofNumber shownKey) none none 2 (none, some b) where
  key := hchild.pairKey_eq fun l hl r hr => by
    rw [hparent.read_parent hsides (by simp [hl]), hchild.read_child hsides (by simp [hr]),
      Option.bind_some, Option.bind_none, hb.foreignKey r hr, greatest_none_left]
  value source hs := by
    rw [hparent.read_parent hsides (by simp [hs]), Option.bind_none]
  id column hc := by
    rw [hparent.read_parent hsides (by simp [hc]), Option.bind_none]
  rowNumber := by
    rw [hchild.read_child_rowNumber hsides, Option.bind_some, hb.rowNumber]
    rcases hparent.rowNumber_mem with hmem | ⟨-, hliteral⟩
    · rw [hparent.read_parent hsides (List.mem_append_right _ hmem), Option.bind_none,
        greatest_none_left]
    · rw [read_of_literal hliteral]
      refine greatest_eq_some_iff.mpr ⟨by simp, fun w hw => ?_⟩
      have hle := (number_one_lt_two (V := V)).le
      rcases List.mem_cons.mp hw with hw | hw
      · exact Option.some.inj hw ▸ hle
      · exact (Option.some.inj (List.mem_singleton.mp hw)).le

variable (hid : parent.id ≠ [])
  (hjoin : plan.HasJoin parent child multiplicity last next join shown)
  {pairs : List (Option (Tuple T V) × Option (Tuple T V))}
  {pair : Option (Tuple T V) × Option (Tuple T V)} {keys values : List (Option V)}
  {key value id : Option V} {number : Int}

include hid hjoin

omit [DecidableEq T] in
theorem Laid.read_joined
    (hkeys : pairs.map (plan.pairKey (parent.id.zip child.foreignKeys)) =
      keys.map (List.replicate parent.id.length))
    (hvalues : ∀ source ∈ parent.foreignKeys,
      pairs.map (fun pair => plan.read (Tuple.merge pair) source) = values)
    (hpair : plan.PairShows parent child key value id number pair) :
    (∀ column ∈ join.identity, plan.read (plan.joined join pairs pair) column = key) ∧
    (∀ column ∈ join.foreignKeys,
      plan.read (plan.joined join pairs pair) column = spread keys values key) ∧
    (∀ column ∈ join.id, plan.read (plan.joined join pairs pair) column = id) ∧
    plan.read (plan.joined join pairs pair) join.rowNumber = ofNumber number := by
  have hfront := hparent.front hchild
  have hinjective : Function.Injective (List.replicate (α := Option V) parent.id.length) :=
    fun x y h =>
      (List.replicate_inj.mp h).2.resolve_left fun h0 => hid (List.length_eq_zero_iff.mp h0)
  refine ⟨fun column hc => ?_, fun column hc => ?_, fun column hc => ?_, ?_⟩
  · have hmem := List.mem_map_of_mem (f := plan.read (plan.joined join pairs pair)) hc
    rw [← reads, hjoin.reads_identity, hpair.key] at hmem
    exact List.eq_of_mem_replicate hmem
  · have hmem := List.mem_map_of_mem (f := plan.read (plan.joined join pairs pair)) hc
    rw [← reads, hjoin.reads_foreignKeys hfront] at hmem
    obtain ⟨source, hs, heq⟩ := List.mem_map.mp hmem
    rw [← heq, hkeys, hvalues source hs, hpair.key]
    exact spread_map_injective hinjective keys values key
  · have hmem := List.mem_map_of_mem (f := plan.read (plan.joined join pairs pair)) hc
    rw [← reads, hjoin.reads_id hfront] at hmem
    obtain ⟨source, hs, heq⟩ := List.mem_map.mp hmem
    rw [← heq, hpair.id source hs]
  · rw [hjoin.read_rowNumber, hpair.rowNumber]

omit [DecidableEq T] in
theorem Laid.inFamily_joined {family : Int}
    (hkeys : pairs.map (plan.pairKey (parent.id.zip child.foreignKeys)) =
      keys.map (List.replicate parent.id.length))
    (hvalues : ∀ source ∈ parent.foreignKeys,
      pairs.map (fun pair => plan.read (Tuple.merge pair) source) = values)
    (hpair : plan.PairShows parent child (ofNumber family) value (ofNumber family) 1 pair)
    (hspread : spread keys values (ofNumber family) = ofNumber family) :
    plan.InFamily (join.operand last.select) family (plan.joined join pairs pair) := by
  obtain ⟨-, hforeignKeys, hids, hrowNumber⟩ :=
    hparent.read_joined hchild hid hjoin hkeys hvalues hpair
  exact ⟨hids, fun column hc => (hforeignKeys column hc).trans hspread, hrowNumber⟩

theorem Laid.isStray_joined (side : Side) {shownKey : Int}
    (hkeys : pairs.map (plan.pairKey (parent.id.zip child.foreignKeys)) =
      keys.map (List.replicate parent.id.length))
    (hvalues : ∀ source ∈ parent.foreignKeys,
      pairs.map (fun pair => plan.read (Tuple.merge pair) source) = values)
    (hpair : plan.PairShows parent child key value none 2 pair)
    (hspread : spread keys values key = ofNumber shownKey)
    (hsource : ∀ t, (Tuple.merge pair).source t = if t = late then some position else none) :
    plan.IsStray side (join.operand last.select) late position shownKey
      (plan.joined join pairs pair) := by
  obtain ⟨-, hforeignKeys, hids, hrowNumber⟩ :=
    hparent.read_joined hchild hid hjoin hkeys hvalues hpair
  exact ⟨hsource, fun _ => hids, fun column hc => (hforeignKeys column hc).trans hspread,
    hrowNumber⟩

variable {a b : Tuple T V} (ha : a.Within first middle) (hb : b.Within middle last)

include ha hb

omit [DecidableEq T] in
theorem Laid.agree_families {family family' : Int} (hfamily : plan.InFamily parent family a)
    (hfamily' : plan.InFamily child family' b) :
    plan.agree join.conditions a b ↔ family = family' := by
  have hcompared : ∀ compared ∈ parent.id.zip child.foreignKeys,
      sameValue (plan.read a compared.1) (plan.read b compared.2) ↔ family = family' := by
    intro compared hc
    obtain ⟨hl, hr⟩ := List.of_mem_zip hc
    rw [hfamily.id _ hl, hfamily'.foreignKey _ hr, sameValue_iff, ofNumber_inj]
    simp
  have hrowNumber : sameValue (plan.read a parent.rowNumber) (plan.read b child.rowNumber) := by
    rw [hfamily.rowNumber, hfamily'.rowNumber, sameValue_iff]
    simp
  obtain ⟨compared, hc⟩ := hchild.exists_compared hid
  rw [hparent.agree_iff hchild hjoin ha hb]
  constructor
  · exact fun h => (hcompared compared hc).mp (h.1 compared hc)
  · exact fun h => ⟨fun compared hc => (hcompared compared hc).mpr h, hrowNumber⟩

theorem Laid.not_agree_left_stray {shownKey : Int}
    (hstray : plan.IsStray .parent parent late position shownKey a) :
    ¬plan.agree join.conditions a b := by
  intro h
  obtain ⟨compared, hc⟩ := hchild.exists_compared hid
  have hsame := ((hparent.agree_iff hchild hjoin ha hb).mp h).1 compared hc
  rw [sameValue_iff] at hsame
  exact hsame.2 (hstray.id rfl _ (List.of_mem_zip hc).1)

omit hid in
theorem Laid.not_agree_right_stray {family shownKey : Int}
    (hfamily : plan.InFamily parent family a)
    (hstray : plan.IsStray .child child late position shownKey b) :
    ¬plan.agree join.conditions a b := by
  intro h
  have hsame := ((hparent.agree_iff hchild hjoin ha hb).mp h).2
  rw [sameValue_iff, hfamily.rowNumber, hstray.rowNumber, ofNumber_inj] at hsame
  exact absurd hsame.1 (by decide)

omit ha hb [DecidableEq T] in
theorem Laid.agree_first_rows {a a' b b' : Tuple T V} {left right : List (Tuple T V)}
    (hleft : ∀ row ∈ a :: a' :: left, row.Within first middle)
    (hright : ∀ row ∈ b :: b' :: right, row.Within middle last)
    (ha : plan.InFamily parent 1 a) (ha' : plan.InFamily parent 2 a')
    (hb : plan.InFamily child 1 b) (hb' : plan.InFamily child 2 b') :
    plan.agree join.conditions a b ∧ plan.agree join.conditions a' b' ∧
      ¬plan.agree join.conditions a b' ∧ ¬plan.agree join.conditions a' b := by
  have hwa := hleft a (by simp)
  have hwa' := hleft a' (by simp)
  have hwb := hright b (by simp)
  have hwb' := hright b' (by simp)
  refine ⟨?_, ?_, ?_, ?_⟩
  · exact (hparent.agree_families hchild hid hjoin hwa hwb ha hb).mpr rfl
  · exact (hparent.agree_families hchild hid hjoin hwa' hwb' ha' hb').mpr rfl
  · rw [hparent.agree_families hchild hid hjoin hwa hwb' ha hb']
    decide
  · rw [hparent.agree_families hchild hid hjoin hwa' hwb ha' hb]
    decide

end Joins

section Steps

variable [DecidableEq T] {left right : JoinTree T C} {incoming shown : List ColumnId}
  {first middle last : Mark} {next : Nat} {parent child : Operand} {multiplicity : Multiplicity}
  {join : PlanJoin} {late : T} {a a' b b' s s' : Tuple T V}
  (hparent : plan.Laid .parent left incoming first middle parent) (hid : parent.id ≠ [])
  (hchild : plan.Laid .child right parent.id middle last child)
  (hjoin : plan.HasJoin parent child multiplicity last next join shown)
  (ha : plan.InFamily parent 1 a) (ha' : plan.InFamily parent 2 a')
  (hb : plan.InFamily child 1 b) (hb' : plan.InFamily child 2 b')

include hparent hid hchild hjoin ha ha' hb hb'

theorem Laid.join_families
    (hrows : plan.rows (plan.twoFamilies late) parent.select = [a, a'])
    (hrows' : plan.rows (plan.twoFamilies late) child.select = [b, b']) :
    ∃ r r', plan.rows (plan.twoFamilies (V := V) late) last.select = [r, r'] ∧
      plan.InFamily (join.operand last.select) 1 r ∧
      plan.InFamily (join.operand last.select) 2 r' := by
  have hleft := hparent.rows_within (plan.twoFamilies (V := V) late)
  have hright := hchild.rows_within (plan.twoFamilies (V := V) late)
  rw [hrows] at hleft
  rw [hrows'] at hright
  obtain ⟨h, h', hn, hn'⟩ := hparent.agree_first_rows hchild hid hjoin hleft hright ha ha' hb hb'
  have hpairs : plan.pairs (plan.twoFamilies (V := V) late) join =
      [(some a, some b), (some a', some b')] := by
    rw [pairs, hjoin.parent_eq, hjoin.child_eq, hrows, hrows']
    exact fullOuter_families h h' hn hn'
  have hsides : ∀ pair ∈ plan.pairs (plan.twoFamilies (V := V) late) join,
      SidesWithin first middle last pair :=
    fun pair hpair => hparent.sidesWithin _ hchild hjoin hpair
  rw [hpairs] at hsides
  have hfirst := hparent.shows_family hchild (hsides _ (by simp)) ha hb
  have hsecond := hparent.shows_family hchild (hsides _ (by simp)) ha' hb'
  have hkeys : [(some a, some b), (some a', some b')].map
        (plan.pairKey (parent.id.zip child.foreignKeys)) =
      [ofNumber 1, ofNumber 2].map (List.replicate parent.id.length) := by
    simp [hfirst.key, hsecond.key]
  have hvalues : ∀ source ∈ parent.foreignKeys, [(some a, some b), (some a', some b')].map
      (fun pair => plan.read (Tuple.merge pair) source) = [ofNumber 1, ofNumber 2] := by
    intro source hs
    simp [hfirst.value source hs, hsecond.value source hs]
  refine ⟨_, _, ?_,
    hparent.inFamily_joined hchild hid hjoin hkeys hvalues hfirst (spread_families (.inl rfl)),
    hparent.inFamily_joined hchild hid hjoin hkeys hvalues hsecond (spread_families (.inr rfl))⟩
  rw [hparent.rows_eq _ hchild hjoin, hpairs]
  rfl

/-- A join of two families that leaves two pairs alone. What these pairs show decides what the
strays of the join show. -/
theorem Laid.join_strays {p p' : Option (Tuple T V) × Option (Tuple T V)}
    {key key' value value' : Option V} {shownKey shownKey' : Int}
    (hpairs : plan.pairs (plan.twoFamilies late) join =
      [(some a, some b), (some a', some b'), p, p'])
    (hshows : SidesWithin first middle last p → plan.PairShows parent child key value none 2 p)
    (hshows' : SidesWithin first middle last p' → plan.PairShows parent child key' value' none 2 p')
    (hfamilies : ∀ {family : Int}, family = 1 ∨ family = 2 →
      spread [ofNumber 1, ofNumber 2, key, key'] [ofNumber 1, ofNumber 2, value, value']
        (ofNumber family) = ofNumber family)
    (hspread : spread [ofNumber 1, ofNumber 2, key, key'] [ofNumber 1, ofNumber 2, value, value']
      key = ofNumber shownKey)
    (hspread' : spread [ofNumber 1, ofNumber 2, key, key'] [ofNumber 1, ofNumber 2, value, value']
      key' = ofNumber shownKey')
    (hsource : ∀ t, (Tuple.merge p).source t = if t = late then some 2 else none)
    (hsource' : ∀ t, (Tuple.merge p').source t = if t = late then some 3 else none) :
    ∃ r r' t t', plan.rows (plan.twoFamilies (V := V) late) last.select = [r, r', t, t'] ∧
      plan.InFamily (join.operand last.select) 1 r ∧
      plan.InFamily (join.operand last.select) 2 r' ∧
      (∀ side, plan.IsStray side (join.operand last.select) late 2 shownKey t) ∧
      (∀ side, plan.IsStray side (join.operand last.select) late 3 shownKey' t') ∧
      ∀ column ∈ join.identity, plan.read t column = key := by
  have hsides : ∀ pair ∈ plan.pairs (plan.twoFamilies (V := V) late) join,
      SidesWithin first middle last pair :=
    fun pair hpair => hparent.sidesWithin _ hchild hjoin hpair
  rw [hpairs] at hsides
  have hfirst := hparent.shows_family hchild (hsides _ (by simp)) ha hb
  have hsecond := hparent.shows_family hchild (hsides _ (by simp)) ha' hb'
  have hp := hshows (hsides p (by simp))
  have hp' := hshows' (hsides p' (by simp))
  have hkeys : [(some a, some b), (some a', some b'), p, p'].map
        (plan.pairKey (parent.id.zip child.foreignKeys)) =
      [ofNumber 1, ofNumber 2, key, key'].map (List.replicate parent.id.length) := by
    simp [hfirst.key, hsecond.key, hp.key, hp'.key]
  have hvalues : ∀ source ∈ parent.foreignKeys, [(some a, some b), (some a', some b'), p, p'].map
      (fun pair => plan.read (Tuple.merge pair) source) =
        [ofNumber 1, ofNumber 2, value, value'] := by
    intro source hs
    simp [hfirst.value source hs, hsecond.value source hs, hp.value source hs, hp'.value source hs]
  refine ⟨_, _, _, _, (hparent.rows_eq _ hchild hjoin).trans (by rw [hpairs]; rfl), ?_, ?_,
    fun side => ?_, fun side => ?_, ?_⟩
  · exact hparent.inFamily_joined hchild hid hjoin hkeys hvalues hfirst (hfamilies (.inl rfl))
  · exact hparent.inFamily_joined hchild hid hjoin hkeys hvalues hsecond (hfamilies (.inr rfl))
  · exact hparent.isStray_joined hchild hid hjoin side hkeys hvalues hp hspread hsource
  · exact hparent.isStray_joined hchild hid hjoin side hkeys hvalues hp' hspread' hsource'
  · exact (hparent.read_joined hchild hid hjoin hkeys hvalues hp).1

/-- Strays of the parent side lose their identity, and show the foreign key of the second family. -/
theorem Laid.join_left_strays {shownKey : Int} (hk : shownKey = 1 ∨ shownKey = 2)
    (hs : plan.IsStray .parent parent late 2 shownKey s)
    (hs' : plan.IsStray .parent parent late 3 2 s')
    (hrows : plan.rows (plan.twoFamilies late) parent.select = [a, a', s, s'])
    (hrows' : plan.rows (plan.twoFamilies late) child.select = [b, b']) :
    ∃ r r' t t', plan.rows (plan.twoFamilies (V := V) late) last.select = [r, r', t, t'] ∧
      plan.InFamily (join.operand last.select) 1 r ∧
      plan.InFamily (join.operand last.select) 2 r' ∧
      (∀ side, plan.IsStray side (join.operand last.select) late 2 2 t) ∧
      (∀ side, plan.IsStray side (join.operand last.select) late 3 2 t') ∧
      ∀ column ∈ join.identity, plan.read t column = none := by
  have hleft := hparent.rows_within (plan.twoFamilies (V := V) late)
  have hright := hchild.rows_within (plan.twoFamilies (V := V) late)
  rw [hrows] at hleft
  rw [hrows'] at hright
  obtain ⟨h, h', hn, hn'⟩ := hparent.agree_first_rows hchild hid hjoin hleft hright ha ha' hb hb'
  have hpairs : plan.pairs (plan.twoFamilies (V := V) late) join =
      [(some a, some b), (some a', some b'), (some s, none), (some s', none)] := by
    rw [pairs, hjoin.parent_eq, hjoin.child_eq, hrows, hrows']
    refine fullOuter_left_strays h h' hn hn' (fun y hy => ?_) (fun y hy => ?_)
    · exact hparent.not_agree_left_stray hchild hid hjoin (hleft s (by simp)) (hright y hy) hs
    · exact hparent.not_agree_left_stray hchild hid hjoin (hleft s' (by simp)) (hright y hy) hs'
  exact hparent.join_strays hid hchild hjoin ha ha' hb hb' hpairs
    (fun hsides => hparent.shows_left_stray hchild hsides hs)
    (fun hsides => hparent.shows_left_stray hchild hsides hs')
    spread_left_strays (spread_left_strays_none hk) (spread_left_strays_none hk)
    (fun t => by simp [Tuple.source_merge, hs.source])
    (fun t => by simp [Tuple.source_merge, hs'.source])

/-- Strays of the child side are identified by the foreign keys that they show, and go on showing
these. -/
theorem Laid.join_right_strays {shownKey : Int} (hk : shownKey = 1 ∨ shownKey = 2)
    (hs : plan.IsStray .child child late 2 shownKey s)
    (hs' : plan.IsStray .child child late 3 2 s')
    (hrows : plan.rows (plan.twoFamilies late) parent.select = [a, a'])
    (hrows' : plan.rows (plan.twoFamilies late) child.select = [b, b', s, s']) :
    ∃ r r' t t', plan.rows (plan.twoFamilies (V := V) late) last.select = [r, r', t, t'] ∧
      plan.InFamily (join.operand last.select) 1 r ∧
      plan.InFamily (join.operand last.select) 2 r' ∧
      (∀ side, plan.IsStray side (join.operand last.select) late 2 shownKey t) ∧
      (∀ side, plan.IsStray side (join.operand last.select) late 3 2 t') ∧
      ∀ column ∈ join.identity, plan.read t column = ofNumber shownKey := by
  have hleft := hparent.rows_within (plan.twoFamilies (V := V) late)
  have hright := hchild.rows_within (plan.twoFamilies (V := V) late)
  rw [hrows] at hleft
  rw [hrows'] at hright
  obtain ⟨h, h', hn, hn'⟩ := hparent.agree_first_rows hchild hid hjoin hleft hright ha ha' hb hb'
  have hstray : ∀ {position : Nat} {k : Int} {y : Tuple T V}, y.Within middle last →
      plan.IsStray .child child late position k y → ∀ x ∈ [a, a'],
        ¬plan.agree join.conditions x y := by
    intro position k y hy hstray x hx
    obtain ⟨family, hfamily⟩ : ∃ family, plan.InFamily parent family x := by
      rcases List.mem_cons.mp hx with rfl | hx
      · exact ⟨1, ha⟩
      · exact ⟨2, List.mem_singleton.mp hx ▸ ha'⟩
    exact hparent.not_agree_right_stray hchild hjoin (hleft x hx) hy hfamily hstray
  have hpairs : plan.pairs (plan.twoFamilies (V := V) late) join =
      [(some a, some b), (some a', some b'), (none, some s), (none, some s')] := by
    rw [pairs, hjoin.parent_eq, hjoin.child_eq, hrows, hrows']
    exact fullOuter_right_strays h h' hn hn' (hstray (hright s (by simp)) hs)
      (hstray (hright s' (by simp)) hs')
  exact hparent.join_strays hid hchild hjoin ha ha' hb hb' hpairs
    (fun hsides => hparent.shows_right_stray hchild hsides hs)
    (fun hsides => hparent.shows_right_stray hchild hsides hs')
    (spread_right_strays hk) (spread_right_strays hk hk) (spread_right_strays hk (.inr rfl))
    (fun t => by simp [Tuple.source_merge, hs.source])
    (fun t => by simp [Tuple.source_merge, hs'.source])

end Steps

section Trees

variable [DecidableEq T] {side : Side} {tree : JoinTree T C} {incoming : List ColumnId}
  {first last : Mark} {operand : Operand} {late : T}

theorem Laid.rows_families (h : plan.Laid side tree incoming first last operand)
    (hlate : late ∉ tree.tables) (hincoming : side = .child → incoming ≠ []) :
    ∃ a a', plan.rows (plan.twoFamilies (V := V) late) operand.select = [a, a'] ∧
      plan.InFamily operand 1 a ∧ plan.InFamily operand 2 a' := by
  induction h with
  | @scan spec incoming first next scan hscan =>
      have hne : scan.table ≠ late := by
        rw [hscan.table]
        rintro rfl
        simp at hlate
      refine ⟨_, _, ?_, hscan.inFamily (by decide : 0 < 2), hscan.inFamily (by decide : 1 < 2)⟩
      rw [TableScan.operand, rows_scan hscan.select, scanRows_twoFamilies hne]
  | @view spec incoming first next scan hscan hview hrowNumber =>
      have hne : scan.table ≠ late := by
        rw [hscan.table]
        rintro rfl
        simp at hlate
      exact hscan.rows_view_twoFamilies hview hrowNumber (hincoming rfl) hne
  | join hparent hid hchild hjoin ihp ihc =>
      rw [JoinTree.tables_join, List.mem_append, not_or] at hlate
      obtain ⟨a, a', hrows, ha, ha'⟩ := ihp hlate.1 (by simp)
      obtain ⟨b, b', hrows', hb, hb'⟩ := ihc hlate.2 fun _ => hid
      exact hparent.join_families hid hchild hjoin ha ha' hb hb' hrows hrows'

/-- A tree with the table `late` below it has one row per family and two strays. The first stray
shows the foreign key of its own family or, once a table above has a further child, that of the
other family. -/
theorem Laid.rows_strays (h : plan.Laid side tree incoming first last operand)
    (hnodup : tree.tables.Nodup) (hlate : late ∈ tree.leaves side)
    (hincoming : side = .child → incoming ≠ []) :
    ∃ a a' s s' shownKey,
      plan.rows (plan.twoFamilies (V := V) late) operand.select = [a, a', s, s'] ∧
      plan.InFamily operand 1 a ∧ plan.InFamily operand 2 a' ∧
      plan.IsStray side operand late 2 shownKey s ∧ plan.IsStray side operand late 3 2 s' ∧
      (shownKey = 1 ∧ ¬tree.Missed late ∨ shownKey = 2) := by
  induction h with
  | scan => simp [JoinTree.leaves] at hlate
  | @view spec incoming first next scan hscan hview hrowNumber =>
      have heq : scan.table = late := by
        rw [hscan.table]
        exact (List.mem_singleton.mp hlate).symm
      obtain ⟨a, a', s, s', hrows, ha, ha', hs, hs'⟩ :=
        hscan.rows_view_twoFamilies_late (V := V) hview hrowNumber (hincoming rfl) heq
      exact ⟨a, a', s, s', 1, hrows, ha, ha', hs, hs', .inl ⟨rfl, id⟩⟩
  | @join side left right _ _ _ _ _ _ _ _ _ _ _ hparent hid hchild hjoin ihp ihc =>
      rw [JoinTree.tables_join] at hnodup
      rw [JoinTree.leaves, List.mem_append] at hlate
      rcases hlate with hlate | hlate
      · have hnot : late ∉ right.tables := fun h =>
          List.disjoint_of_nodup_append hnodup (left.leaves_subset hlate) h
        obtain ⟨a, a', s, s', shownKey, hrows, ha, ha', hs, hs', hshown⟩ :=
          ihp hnodup.of_append_left hlate (by simp)
        obtain ⟨b, b', hrows', hb, hb'⟩ := hchild.rows_families (V := V) hnot fun _ => hid
        obtain ⟨r, r', t, t', hrows, hr, hr', ht, ht', -⟩ := hparent.join_left_strays hid hchild
          hjoin ha ha' hb hb' (hshown.imp And.left id) hs hs' hrows hrows'
        exact ⟨r, r', t, t', 2, hrows, hr, hr', ht side, ht' side, .inr rfl⟩
      · have hnot : late ∉ left.tables := fun h =>
          List.disjoint_of_nodup_append hnodup h (right.leaves_subset hlate)
        obtain ⟨a, a', hrows, ha, ha'⟩ := hparent.rows_families (V := V) hnot (by simp)
        obtain ⟨b, b', s, s', shownKey, hrows', hb, hb', hs, hs', hshown⟩ :=
          ihc hnodup.of_append_right hlate fun _ => hid
        obtain ⟨r, r', t, t', hrows, hr, hr', ht, ht', -⟩ := hparent.join_right_strays hid hchild
          hjoin ha ha' hb hb' (hshown.imp And.left id) hs hs' hrows hrows'
        refine ⟨r, r', t, t', shownKey, hrows, hr, hr', ht side, ht' side, ?_⟩
        refine hshown.imp (fun h => ⟨h.1, ?_⟩) id
        rintro (hmem | hmissed)
        · exact hnot hmem
        · exact h.2 hmissed

end Trees

end FlatAggregate.Plan
