import FlatAggregate.Document.ValueReader

/-!
# Reading records by shape

A record can give its fields in more than one way: fields that hold a default may be left out, other
members may be added, and the order is free. `Value.Gives` says what matters, the values that there
are for a name.

A reader of a record keeps a draft. What the draft holds for a field depends only on whether its
member has been read (`Value.held`). So all drafts of a reading are known beforehand, and one lemma
goes through the members for every shape (`ValueReader.members_eq_finish`).
-/

namespace FlatAggregate

/-! ### Members by name -/

namespace Value

def textKeyed (members : List (String × Value)) : List (Value × Value) :=
  members.map fun (name, value) => (text name, value)

theorem object_eq (members : List (String × Value)) : object members = record (textKeyed members) :=
  rfl

@[simp] theorem textKeyed_nil : textKeyed [] = [] := rfl

@[simp] theorem textKeyed_cons (name : String) (value : Value) (rest : List (String × Value)) :
    textKeyed ((name, value) :: rest) = (text name, value) :: textKeyed rest := rfl

@[simp] theorem textKeyed_append (members others : List (String × Value)) :
    textKeyed (members ++ others) = textKeyed members ++ textKeyed others :=
  List.map_append

def valuesOf (name : String) (members : List (String × Value)) : List Value :=
  (members.filter (·.1 = name)).map Prod.snd

@[simp] theorem valuesOf_nil (name : String) : valuesOf name [] = [] := rfl

@[simp] theorem valuesOf_cons (name other : String) (value : Value)
    (rest : List (String × Value)) :
    valuesOf name ((other, value) :: rest) =
      if other = name then value :: valuesOf name rest else valuesOf name rest := by
  by_cases h : other = name <;> simp [valuesOf, h]

@[simp] theorem valuesOf_append (name : String) (members others : List (String × Value)) :
    valuesOf name (members ++ others) = valuesOf name members ++ valuesOf name others := by
  simp [valuesOf]

theorem valuesOf_eq_nil {name : String} {value : Value} {before rest : List (String × Value)}
    (h : (valuesOf name (before ++ (name, value) :: rest)).length ≤ 1) :
    valuesOf name before = [] := by
  rw [valuesOf_append, valuesOf_cons, if_pos rfl, List.length_append, List.length_cons] at h
  exact List.eq_nil_of_length_eq_zero (by omega)

/-- The members have one with the given name, and its value is as told; or they have none, where it
may be left out. -/
def Gives (members : List (String × Value)) (name : String) (written : Value → Prop)
    (optional : Prop) : Prop :=
  (∃ value, valuesOf name members = [value] ∧ written value) ∨
    (valuesOf name members = [] ∧ optional)

/-- What a draft holds for a name, once these members have been read: at first `initial`, then what
the member of that name gives. -/
def held {α : Type} (name : String) (initial given : α) (members : List (String × Value)) : α :=
  if valuesOf name members = [] then initial else given

section Held

variable {α : Type} {name : String} {initial given : α} {members : List (String × Value)}

@[simp] theorem held_append_singleton (other : String) (value : Value) :
    held name initial given (members ++ [(other, value)]) =
      if other = name then given else held name initial given members := by
  by_cases h : other = name <;> simp [held, h]

/-- A draft that tells whether there was a member, with the default in the end. -/
theorem getD_held : (held name none (some given) members).getD initial =
    held name initial given members := by
  rw [held, held]
  split <;> rfl

end Held

namespace Gives

variable {α : Type} {name : String} {initial given : α} {members : List (String × Value)}
variable {written : Value → Prop} {optional : Prop}

theorem congr (h : Gives members name written optional) {others : List (String × Value)}
    (hvalues : valuesOf name others = valuesOf name members) :
    Gives others name written optional := by
  rwa [Gives, hvalues]

theorem held_eq (h : Gives members name written optional) (hdefault : optional → given = initial) :
    held name initial given members = given := by
  rcases h with ⟨value, hvalues, -⟩ | ⟨hvalues, hoptional⟩
  · simp [held, hvalues]
  · simp [held, hvalues, hdefault hoptional]

theorem length_le (h : Gives members name written optional) :
    (valuesOf name members).length ≤ 1 := by
  rcases h with ⟨value, hvalues, -⟩ | ⟨hvalues, -⟩ <;> simp [hvalues]

theorem held_before (h : Gives members name written optional) {before rest : List (String × Value)}
    {value : Value} (hmembers : members = before ++ (name, value) :: rest) :
    held name initial given before = initial :=
  if_pos (valuesOf_eq_nil (hmembers ▸ h.length_le))

theorem written_of_mem (h : Gives members name written optional) {value : Value}
    (hmem : value ∈ valuesOf name members) : written value := by
  rcases h with ⟨other, hvalues, hwritten⟩ | ⟨hvalues, -⟩
  · rw [hvalues, List.mem_singleton] at hmem
    exact hmem ▸ hwritten
  · simp [hvalues] at hmem

end Gives

end Value

open Value

/-! ### Records by shape -/

section Shapes

variable {σ α : Type} {drafts : List (String × Value) → σ} {all : List (String × Value)}

/-- The members have the field at most once, and at least once if they have to; and its value takes
each draft to the next one. -/
structure Field.Reads (field : Field ValueReader σ) (drafts : List (String × Value) → σ)
    (all : List (String × Value)) : Prop where
  once : (valuesOf field.name all).length ≤ 1
  given : field.required → valuesOf field.name all ≠ []
  read : ∀ before, ∀ value ∈ valuesOf field.name all,
    field.read (drafts before) value = .ok (drafts (before ++ [(field.name, value)]))

theorem Value.Gives.reads {β : Type} {name : String} {written : Value → Prop}
    {optional : Prop} {required : Bool} {reader : ValueReader β} {update : β → σ → σ}
    (h : Gives all name written optional) (given : β) (hrequired : required → ¬ optional)
    (hreader : ∀ value, written value → reader value = .ok given)
    (hupdate : ∀ before value, update given (drafts before) = drafts (before ++ [(name, value)])) :
    Field.Reads ⟨name, required, fun draft => do return update (← reader) draft⟩ drafts all where
  once := h.length_le
  given hfield := by
    rcases h with ⟨value, hvalues, -⟩ | ⟨-, hoptional⟩
    · simp [hvalues]
    · exact absurd hoptional (hrequired hfield)
  read before value hmem := by
    change Except.bind (reader value) _ = _
    rw [hreader value (h.written_of_mem hmem), ← hupdate before value]
    rfl

theorem RecordShape.field?_isSome {m : Type → Type} {shape : RecordShape m σ α} {field : Field m σ}
    (h : field ∈ shape.fields) : (shape.field? field.name).isSome := by
  rw [field?, List.find?_isSome]
  exact ⟨field, h, decide_eq_true rfl⟩

theorem RecordShape.not_mem_of_field?_eq_none {m : Type → Type} {shape : RecordShape m σ α}
    {name : String} (h : shape.field? name = none) : name ∉ shape.fields.map Field.name := by
  rw [field?, List.find?_eq_none] at h
  rintro hmem
  obtain ⟨field, hfield, rfl⟩ := List.mem_map.mp hmem
  exact h field hfield (decide_eq_true rfl)

/-- The members of a record are read one after the other, each from one draft to the next. -/
theorem ValueReader.members_eq_finish (shape : RecordShape ValueReader σ α)
    (drafts : List (String × Value) → σ) (hfields : ∀ field ∈ shape.fields, field.Reads drafts all)
    (hpass : ∀ before name value, name ∉ shape.fields.map Field.name →
      shape.keep.elim (drafts before) (fun keep => keep name value (drafts before)) =
        drafts (before ++ [(name, value)])) :
    members shape (textKeyed all) [] (drafts []) = shape.finish (drafts all) := by
  -- The names seen are those of the fields among the members before.
  suffices hrun : ∀ (rest before : List (String × Value)) (seen : List String),
      all = before ++ rest →
      (∀ name, name ∈ seen ↔ (shape.field? name).isSome ∧ valuesOf name before ≠ []) →
      members shape (textKeyed rest) seen (drafts before) = shape.finish (drafts all) from
    hrun all [] [] rfl (by simp)
  intro rest
  induction rest with
  | nil =>
      intro before seen hall hseen
      rw [List.append_nil] at hall
      subst hall
      have hclosed : (shape.fields.find? fun field =>
          field.required && !seen.contains field.name) = none := by
        rw [List.find?_eq_none]
        intro field hfield
        by_cases hrequired : field.required
        · have hmem := (hseen field.name).mpr
            ⟨shape.field?_isSome hfield, (hfields field hfield).given hrequired⟩
          simp [hmem]
        · simp [hrequired]
      rw [textKeyed_nil, members, RecordShape.close, hclosed]
  | cons member rest ih =>
      obtain ⟨name, value⟩ := member
      intro before seen hall hseen
      have hsplit : all = (before ++ [(name, value)]) ++ rest := by simp [hall]
      rw [textKeyed_cons, members]
      cases hfound : shape.field? name with
      | none =>
          have hnext := hpass before name value (shape.not_mem_of_field?_eq_none hfound)
          have hrest := ih _ seen hsplit fun other => by
            rw [hseen other, valuesOf_append, valuesOf_cons, valuesOf_nil]
            by_cases hother : name = other
            · simp [← hother, hfound]
            · simp [hother]
          cases hkeep : shape.keep <;> simp only [hkeep, Option.elim] at hnext ⊢ <;>
            rw [hnext, hrest]
      | some field =>
          have hmem : field ∈ shape.fields := List.mem_of_find?_eq_some hfound
          have hname : field.name = name := by simpa using List.find?_some hfound
          obtain ⟨honce, -, hread⟩ := hfields field hmem
          have hbefore : valuesOf name before = [] := valuesOf_eq_nil (hall ▸ hname ▸ honce)
          have hunseen : seen.contains name = false := by simpa [hbefore] using hseen name
          have hnext := hread before value (by simp [hname, hall])
          have hrest := ih _ (name :: seen) hsplit fun other => by
            rw [List.mem_cons, hseen other, valuesOf_append, valuesOf_cons, valuesOf_nil]
            by_cases hother : name = other
            · simp [← hother, hfound]
            · simp [hother, Ne.symm hother]
          simp only [hunseen, Bool.false_eq_true, if_false]
          rw [hnext, hname]
          exact hrest

end Shapes

namespace ValueReader

theorem text_text (value : String) : text (.text value) = .ok value := rfl

theorem optionalText_ofOption (value : Option String) :
    optionalText (ofOption value) = .ok value := by
  cases value <;> rfl

theorem list_ofTexts (values : List String) : list text (ofTexts values) = .ok values := by
  rw [ofTexts, list]
  induction values with
  | nil => rfl
  | cons value rest ih =>
      rw [List.map_cons, List.mapM_cons, ih]
      rfl

end ValueReader

end FlatAggregate
