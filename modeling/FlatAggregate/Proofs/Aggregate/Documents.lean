import FlatAggregate.Aggregate.Document
import FlatAggregate.Proofs.Document.Records

/-!
# Reading back the documents of aggregates

`Aggregate.Written` tells all documents of an aggregate: at every level, members that hold their
default may be left out, unknown ones may be added, and the order is free. Each of these documents
is read as the aggregate, and so is the one that is written for it (`definitions_lossless`).

The members of a child and of its entity stand in one record. The draft of a child takes its own
and leaves the others (`ChildDraft.members_shape`); the draft of an entity takes those and passes
over the child's (`EntityDraft.ofMembers_eq_after`). Below the first level of children both read the
whole record, at the first level the entity reads what the child has kept.
-/

namespace FlatAggregate

open Value

theorem ValueReader.choice_name (multiplicity : Multiplicity) :
    choice Multiplicity.variants (.text multiplicity.name) = .ok multiplicity := by
  cases multiplicity <;> rfl

/-! ### The documents of an aggregate -/

mutual

/-- The members of a record say what the entity is, among others. -/
def Entity.WrittenIn (members : List (String × Value)) : Entity → Prop
  | ⟨table, idColumn, columns, children⟩ =>
    Gives members "table" (· = text table) False ∧
      Gives members "id_column" (· = ofOption idColumn) (idColumn = none) ∧
      Gives members "columns" (· = ofTexts columns) (columns = []) ∧
      Gives members "children" (fun value => ∃ values, value = list values ∧
        Child.AllWritten values children) (children = [])

def Child.Written (value : Value) : Child → Prop
  | ⟨property, multiplicity, keyColumn, backReference, entity⟩ =>
    ∃ members, value = object members ∧
      Gives members "property" (· = text property) False ∧
      Gives members "multiplicity" (· = text multiplicity.name) (multiplicity = .multiple) ∧
      Gives members "key_column" (· = ofOption keyColumn) (keyColumn = none) ∧
      Gives members "back_reference" (· = ofOption backReference) (backReference = none) ∧
      Entity.WrittenIn members entity

def Child.AllWritten (values : List Value) : List Child → Prop
  | [] => values = []
  | child :: rest => ∃ value others, values = value :: others ∧ Child.Written value child ∧
      Child.AllWritten others rest

end

/-- The value is a document of the aggregate. -/
def Aggregate.Written (value : Value) (aggregate : Aggregate) : Prop :=
  ∃ members, value = object members ∧
    Gives members "name" (· = text aggregate.name) False ∧
    Gives members "root" (fun root => ∃ inner, root = object inner ∧
      Entity.WrittenIn inner aggregate.root) False

def Entity.memberNames : List String := ["table", "id_column", "columns", "children"]

def Child.ownNames : List String := ["property", "multiplicity", "key_column", "back_reference"]

theorem Entity.WrittenIn.congr {entity : Entity} {members others : List (String × Value)}
    (h : Entity.WrittenIn members entity)
    (hvalues : ∀ name ∈ memberNames, valuesOf name others = valuesOf name members) :
    Entity.WrittenIn others entity := by
  cases entity
  obtain ⟨htable, hidColumn, hcolumns, hchildren⟩ := h
  simp only [memberNames, List.forall_mem_cons] at hvalues
  exact ⟨htable.congr hvalues.1, hidColumn.congr hvalues.2.1, hcolumns.congr hvalues.2.2.1,
    hchildren.congr hvalues.2.2.2.1⟩

theorem Entity.WrittenIn.filter {entity : Entity} {members : List (String × Value)}
    (h : Entity.WrittenIn members entity) :
    Entity.WrittenIn (members.filter (·.1 ∉ Child.ownNames)) entity := by
  refine h.congr fun name hname => ?_
  have hother : name ∉ Child.ownNames := by
    revert name
    decide
  rw [valuesOf, valuesOf, List.filter_filter]
  congr 1
  refine List.filter_congr fun member _ => ?_
  by_cases heq : member.1 = name <;> simp [heq, hother]

theorem Entity.valuesOf_toMembers (entity : Entity) :
    ∀ name ∈ Child.ownNames, valuesOf name entity.toMembers = [] := by
  cases entity
  simp [Entity.toMembers, Child.ownNames]

mutual

theorem Entity.writtenIn_toMembers : ∀ entity : Entity, Entity.WrittenIn entity.toMembers entity
  | ⟨table, idColumn, columns, children⟩ => by
      rw [Entity.toMembers, Entity.WrittenIn]
      exact ⟨.inl ⟨_, by simp, rfl⟩, .inl ⟨_, by simp, rfl⟩, .inl ⟨_, by simp, rfl⟩,
        .inl ⟨_, by simp, _, rfl, Child.allWritten_toValues children⟩⟩

theorem Child.written_toValue : ∀ child : Child, Child.Written child.toValue child
  | ⟨property, multiplicity, keyColumn, backReference, entity⟩ => by
      rw [Child.toValue, Child.Written]
      have hown := entity.valuesOf_toMembers
      simp only [Child.ownNames, List.forall_mem_cons] at hown
      obtain ⟨hproperty, hmultiplicity, hkey, hback, -⟩ := hown
      refine ⟨_, rfl, .inl ⟨_, by simp [hproperty], rfl⟩, .inl ⟨_, by simp [hmultiplicity], rfl⟩,
        .inl ⟨_, by simp [hkey], rfl⟩, .inl ⟨_, by simp [hback], rfl⟩,
        entity.writtenIn_toMembers.congr ?_⟩
      simp [Entity.memberNames]

theorem Child.allWritten_toValues : ∀ children : List Child,
    Child.AllWritten (Child.toValues children) children
  | [] => by rw [Child.toValues, Child.AllWritten]
  | child :: rest => by
      rw [Child.toValues, Child.AllWritten]
      exact ⟨_, _, rfl, child.written_toValue, Child.allWritten_toValues rest⟩

end

theorem Aggregate.written_toValue (aggregate : Aggregate) :
    Aggregate.Written aggregate.toValue aggregate :=
  ⟨_, rfl, .inl ⟨_, by simp, rfl⟩, .inl ⟨_, by simp, _, rfl, aggregate.root.writtenIn_toMembers⟩⟩

/-! ### The entity of a child -/

def EntityDraft.after (entity : Entity) (members : List (String × Value)) : EntityDraft where
  table := held "table" none (some entity.table) members
  idColumn := held "id_column" none (some entity.idColumn) members
  columns := held "columns" none (some entity.columns) members
  children := held "children" none (some entity.children) members

theorem EntityDraft.finish_after {entity : Entity} {members : List (String × Value)}
    (h : Entity.WrittenIn members entity) : (after entity members).finish = .ok entity := by
  obtain ⟨table, idColumn, columns, children⟩ := entity
  obtain ⟨htable, hidColumn, hcolumns, hchildren⟩ := h
  have htable : held "table" none (some table) members = some table := htable.held_eq nofun
  simp [finish, after, htable, getD_held, hidColumn.held_eq, hcolumns.held_eq, hchildren.held_eq]

/-- The members of an entity are entered one after the other, each into a draft without it. -/
theorem EntityDraft.ofMembers_eq_after {entity : Entity} {all : List (String × Value)}
    (hinner : ∀ values, Child.AllWritten values entity.children →
      Child.ofValues values = .ok entity.children) (h : Entity.WrittenIn all entity) :
    ofMembers {} (textKeyed all) = .ok (after entity all) := by
  suffices hrun : ∀ rest before : List (String × Value), all = before ++ rest →
      ofMembers (after entity before) (textKeyed rest) = .ok (after entity all) from
    hrun all [] rfl
  obtain ⟨table, idColumn, columns, children⟩ := entity
  obtain ⟨htable, hidColumn, hcolumns, hchildren⟩ := h
  intro rest
  induction rest with
  | nil =>
      intro before hall
      rw [hall, List.append_nil]
      rfl
  | cons member rest ih =>
      obtain ⟨name, value⟩ := member
      intro before hall
      have hrest := ih (before ++ [(name, value)]) (by simp [hall])
      have hmem : value ∈ valuesOf name all := by simp [hall]
      rw [textKeyed_cons]
      -- One case for each field that the reader asks for; any other name is passed over.
      by_cases h1 : name = "table"
      · subst h1
        obtain rfl := htable.written_of_mem hmem
        rw [ofMembers]
        simpa [after, htable.held_before hall, ValueReader.text_text, bind, Except.bind] using hrest
      by_cases h2 : name = "id_column"
      · subst h2
        obtain rfl := hidColumn.written_of_mem hmem
        rw [ofMembers]
        simpa [after, hidColumn.held_before hall, ValueReader.optionalText_ofOption, bind,
          Except.bind] using hrest
      by_cases h3 : name = "columns"
      · subst h3
        obtain rfl := hcolumns.written_of_mem hmem
        rw [ofMembers]
        simpa [after, hcolumns.held_before hall, ValueReader.list_ofTexts, bind, Except.bind]
          using hrest
      by_cases h4 : name = "children"
      · subst h4
        obtain ⟨values, rfl, hvalues⟩ := hchildren.written_of_mem hmem
        rw [ofMembers]
        simpa [after, hchildren.held_before hall, hinner values hvalues, bind, Except.bind]
          using hrest
      · rw [ofMembers]
        · simpa [after, h1, h2, h3, h4] using hrest
        all_goals simp [*]

/-! ### Children -/

namespace ChildDraft

def after (child : Child) (members : List (String × Value)) : ChildDraft where
  property := held "property" "" child.property members
  multiplicity := held "multiplicity" .multiple child.multiplicity members
  keyColumn := held "key_column" none child.keyColumn members
  backReference := held "back_reference" none child.backReference members
  kept := textKeyed (members.filter (·.1 ∉ Child.ownNames))

/-- A child is read from its members; what is left to do with its draft is up to `finish`. -/
theorem members_shape {α : Type} (finish : ChildDraft → Except Mismatch α) {child : Child}
    {value : Value} (h : Child.Written value child) :
    ∃ members, value = object members ∧ Entity.WrittenIn members child.entity ∧
      (after child members).withEntity child.entity = child ∧
      ValueReader.members (shape finish) (textKeyed members) [] {} =
        finish (after child members) := by
  obtain ⟨property, multiplicity, keyColumn, backReference, entity⟩ := child
  obtain ⟨members, rfl, hproperty, hmultiplicity, hkey, hback, hentity⟩ := h
  refine ⟨members, rfl, hentity, ?_, ?_⟩
  · simp [withEntity, after, hproperty.held_eq, hmultiplicity.held_eq, hkey.held_eq, hback.held_eq]
  · refine ValueReader.members_eq_finish (shape finish)
      (after ⟨property, multiplicity, keyColumn, backReference, entity⟩) ?_ ?_
    · simp only [shape, fields, List.forall_mem_cons]
      refine ⟨hproperty.reads property (by simp) (fun _ h => h ▸ ValueReader.text_text _) ?_,
        hmultiplicity.reads multiplicity (by simp) (fun _ h => h ▸ ValueReader.choice_name _) ?_,
        hkey.reads keyColumn (by simp) (fun _ h => h ▸ ValueReader.optionalText_ofOption _) ?_,
        hback.reads backReference (by simp)
          (fun _ h => h ▸ ValueReader.optionalText_ofOption _) ?_, List.forall_mem_nil _⟩
      all_goals simp [after, Child.ownNames]
    · intro before name value hother
      have hkept : name ∉ Child.ownNames := hother
      have hnames := hkept
      simp only [Child.ownNames, List.mem_cons, List.not_mem_nil, or_false, not_or] at hnames
      simp [after, shape, hnames, hkept]

end ChildDraft

/-- What is left to do with the members that are kept for the entity of a child. -/
theorem ChildDraft.finish_eq {draft : ChildDraft} {entity : Entity}
    {members : List (String × Value)} (h : Entity.WrittenIn members entity)
    (hread : EntityDraft.ofMembers {} (textKeyed members) = .ok (.after entity members)) :
    (do let read ← EntityDraft.ofMembers {} (textKeyed members)
        return draft.withEntity (← read.finish)) = Except.ok (draft.withEntity entity) := by
  rw [hread]
  change Except.bind (EntityDraft.after entity members).finish _ = _
  rw [EntityDraft.finish_after h]
  rfl

mutual

theorem Entity.ofMembers_of_writtenIn : ∀ {entity : Entity} {members : List (String × Value)},
    Entity.WrittenIn members entity →
      EntityDraft.ofMembers {} (textKeyed members) = .ok (.after entity members)
  | ⟨_, _, _, _⟩, _, h =>
    EntityDraft.ofMembers_eq_after (fun _ hvalues => Child.ofValues_of_written hvalues) h

theorem Child.ofValue_of_written : ∀ {child : Child} {value : Value}, Child.Written value child →
    Child.ofValue value = .ok child
  | ⟨_, _, _, _, _⟩, _, h => by
      obtain ⟨members, rfl, hentity, hown, hread⟩ := ChildDraft.members_shape .ok h
      rw [object_eq, Child.ofValue, hread]
      exact (ChildDraft.finish_eq hentity (Entity.ofMembers_of_writtenIn hentity)).trans
        (congrArg Except.ok hown)

theorem Child.ofValues_of_written : ∀ {children : List Child} {values : List Value},
    Child.AllWritten values children → Child.ofValues values = .ok children
  | [], values, h => by
      rw [Child.AllWritten] at h
      rw [h, Child.ofValues]
  | child :: rest, values, h => by
      rw [Child.AllWritten] at h
      obtain ⟨value, others, rfl, hvalue, hothers⟩ := h
      rw [Child.ofValues, Child.ofValue_of_written hvalue, Child.ofValues_of_written hothers]
      rfl

end

/-- At the first level a child is read by its shape, its entity from the members that it keeps. -/
theorem Child.record_of_written {child : Child} {value : Value} (h : Child.Written value child) :
    ValueReader.record Child.shape {} value = .ok child := by
  obtain ⟨members, rfl, hentity, hown, hread⟩ := ChildDraft.members_shape _ h
  rw [object_eq, ValueReader.record, Child.shape, hread]
  have hkept := hentity.filter
  exact (ChildDraft.finish_eq hkept (Entity.ofMembers_of_writtenIn hkept)).trans
    (congrArg Except.ok hown)

theorem Child.mapM_of_written : ∀ {children : List Child} {values : List Value},
    Child.AllWritten values children →
      values.mapM (ValueReader.record Child.shape {}) = .ok children
  | [], values, h => by
      rw [Child.AllWritten] at h
      rw [h, List.mapM_nil]
      rfl
  | child :: rest, values, h => by
      rw [Child.AllWritten] at h
      obtain ⟨value, others, rfl, hvalue, hothers⟩ := h
      rw [List.mapM_cons, Child.record_of_written hvalue, Child.mapM_of_written hothers]
      rfl

/-! ### Root entities and aggregates -/

namespace Entity

def after (entity : Entity) (members : List (String × Value)) : Entity where
  table := held "table" "" entity.table members
  idColumn := held "id_column" none entity.idColumn members
  columns := held "columns" [] entity.columns members
  children := held "children" [] entity.children members

theorem record_of_writtenIn {entity : Entity} {members : List (String × Value)}
    (h : WrittenIn members entity) :
    ValueReader.record shape { table := "" } (object members) = .ok entity := by
  obtain ⟨table, idColumn, columns, children⟩ := entity
  obtain ⟨htable, hidColumn, hcolumns, hchildren⟩ := h
  have hafter : after ⟨table, idColumn, columns, children⟩ members =
      ⟨table, idColumn, columns, children⟩ := by
    simp [after, htable.held_eq, hidColumn.held_eq, hcolumns.held_eq, hchildren.held_eq]
  rw [object_eq, ValueReader.record]
  refine (ValueReader.members_eq_finish shape (after ⟨table, idColumn, columns, children⟩)
    ?_ ?_).trans (congrArg Except.ok hafter)
  · simp only [shape, List.forall_mem_cons]
    refine ⟨htable.reads table (by simp) (fun _ h => h ▸ ValueReader.text_text _) ?_,
      hidColumn.reads idColumn (by simp)
        (fun _ h => h ▸ ValueReader.optionalText_ofOption _) ?_,
      hcolumns.reads columns (by simp) (fun _ h => h ▸ ValueReader.list_ofTexts _) ?_,
      hchildren.reads children (by simp) ?_ ?_, List.forall_mem_nil _⟩
    case refine_4 =>
      rintro _ ⟨values, rfl, hvalues⟩
      exact Child.mapM_of_written hvalues
    all_goals simp [after]
  · intro before name value hother
    replace hother : name ∉ memberNames := hother
    simp only [memberNames, List.mem_cons, List.not_mem_nil, or_false, not_or] at hother
    simp [after, shape, hother]

end Entity

namespace Aggregate

def after (aggregate : Aggregate) (members : List (String × Value)) : Aggregate where
  name := held "name" "" aggregate.name members
  root := held "root" { table := "" } aggregate.root members

theorem ofValue_of_written {aggregate : Aggregate} {value : Value} (h : Written value aggregate) :
    ofValue value = .ok aggregate := by
  obtain ⟨members, rfl, hname, hroot⟩ := h
  have hafter : aggregate.after members = aggregate := by
    simp [after, hname.held_eq, hroot.held_eq]
  refine (ValueReader.members_eq_finish shape aggregate.after ?_ ?_).trans
    (congrArg Except.ok hafter)
  · simp only [shape, List.forall_mem_cons]
    refine ⟨hname.reads aggregate.name (by simp) (fun _ h => h ▸ ValueReader.text_text _) ?_,
      hroot.reads aggregate.root (by simp) ?_ ?_, List.forall_mem_nil _⟩
    case refine_2 =>
      rintro _ ⟨inner, rfl, hinner⟩
      exact Entity.record_of_writtenIn hinner
    all_goals simp [after]
  · intro before name value hother
    replace hother : name ∉ ["name", "root"] := hother
    simp only [List.mem_cons, List.not_mem_nil, or_false, not_or] at hother
    simp [after, shape, hother]

end Aggregate

/-- A definition survives being written and read, also when members that hold their default are left
out at any level, unknown ones are added, or the members are in another order. -/
theorem definitions_lossless (aggregate : Aggregate) :
    Aggregate.ofValue aggregate.toValue = .ok aggregate ∧
      ∀ value, Aggregate.Written value aggregate → Aggregate.ofValue value = .ok aggregate :=
  ⟨Aggregate.ofValue_of_written aggregate.written_toValue,
    fun _ => Aggregate.ofValue_of_written⟩

/-- A definition with most members left out, two unknown ones, and the entity of the child before
the child. -/
theorem definitions_lossless_sparse :
    Aggregate.ofValue (object [("version", integer 2),
        ("root", object [("children", list [object [("table", text "passport"), ("note", null),
            ("multiplicity", text "single"), ("property", text "passport")]]),
          ("id_column", text "id"), ("table", text "person")]),
        ("name", text "person")]) =
      .ok ⟨"person", ⟨"person", some "id", [],
        [⟨"passport", .single, none, none, ⟨"passport", none, [], []⟩⟩]⟩⟩ := by
  have hchild : Child.Written (object [("table", text "passport"), ("note", null),
        ("multiplicity", text "single"), ("property", text "passport")])
      ⟨"passport", .single, none, none, ⟨"passport", none, [], []⟩⟩ :=
    ⟨_, rfl, .inl ⟨_, rfl, rfl⟩, .inl ⟨_, rfl, rfl⟩, .inr ⟨rfl, rfl⟩, .inr ⟨rfl, rfl⟩,
      .inl ⟨_, rfl, rfl⟩, .inr ⟨rfl, rfl⟩, .inr ⟨rfl, rfl⟩, .inr ⟨rfl, rfl⟩⟩
  exact (definitions_lossless _).2 _ ⟨_, rfl, .inl ⟨_, rfl, rfl⟩, .inl ⟨_, rfl, _, rfl,
    .inl ⟨_, rfl, rfl⟩, .inl ⟨_, rfl, rfl⟩, .inr ⟨rfl, rfl⟩,
    .inl ⟨_, rfl, _, rfl, _, _, rfl, hchild, rfl⟩⟩⟩

end FlatAggregate
