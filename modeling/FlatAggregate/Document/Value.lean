/-!
# Document values

The value that a document denotes, whatever its format. A record keeps its members in the order of
the document, repeats included. Its keys are values themselves, for a format may allow more than
text there.

The readers below hand out the parts of a value together with the fact that they are smaller, so
that a reader of a nested type may call itself on them.

`text?`, `option?`, `items?`, `case?`, `tagged?` and `fields?` take a value apart: a text, text or
null, a list, an alternative without content, one with content, and a record. A `Part` of a value is
a value that is smaller.
-/

namespace FlatAggregate

inductive Value where
  | null
  | bool (value : Bool)
  | integer (value : Int)
  /-- Zero with a minus sign; unlike zero it counts no positions. -/
  | minusZero
  | float (value : Float)
  | text (value : String)
  | list (items : List Value)
  | record (members : List (Value × Value))
  deriving Repr, Inhabited

namespace Value

def object (members : List (String × Value)) : Value :=
  record (members.map fun (name, value) => (text name, value))

def ofOption : Option String → Value
  | some value => text value
  | none => null

def ofTexts (values : List String) : Value := list (values.map text)

def text? : Value → Option String
  | text value => some value
  | _ => none

def option? : Value → Option (Option String)
  | null => some none
  | text value => some (some value)
  | _ => none

@[simp] theorem text?_text (value : String) : (text value).text? = some value := rfl

@[simp] theorem option?_ofOption (value : Option String) :
    (ofOption value).option? = some value := by
  cases value <;> rfl

abbrev Part (value : Value) := { part : Value // sizeOf part < sizeOf value }

/-- The member of a record with the given name; of several, the last. -/
def member? (name : String) :
    (members : List (Value × Value)) → Option { part : Value // sizeOf part < sizeOf members }
  | [] => none
  | (key, value) :: rest =>
    match member? name rest with
    | some ⟨part, h⟩ => some ⟨part, by simp; omega⟩
    | none =>
      match key with
      | text found => if found = name then some ⟨value, by simp; omega⟩ else none
      | _ => none

/-- The content of a record with one member only, with the name of that member. -/
def tagged? : (value : Value) → Option (String × value.Part)
  | record [(text tag, content)] => some (tag, ⟨content, by simp; omega⟩)
  | _ => none

theorem sizeOf_lt_sizeOf_object (tag : String) (content : Value) :
    sizeOf content < sizeOf (object [(tag, content)]) := by
  simp [object]
  omega

@[simp] theorem tagged?_object (tag : String) (content : Value) :
    (object [(tag, content)]).tagged? =
      some (tag, ⟨content, sizeOf_lt_sizeOf_object tag content⟩) := rfl

/-- The name of a case that has no content: the name itself, or tagged with null. -/
def case? : Value → Option String
  | text name => some name
  | record [(text name, null)] => some name
  | _ => none

/-- The fields of a record by their names, unknown members being passed over. A list of as many
items as there are names is read as the fields in order. -/
def fields? (names : List String) : (value : Value) → Option (List (Option value.Part))
  | record members =>
    some (names.map fun name =>
      (member? name members).map fun ⟨part, h⟩ => ⟨part, by simp; omega⟩)
  | list items =>
    if items.length = names.length then
      some (items.attach.map fun ⟨item, h⟩ =>
        some ⟨item, by have := List.sizeOf_lt_of_mem h; simp; omega⟩)
    else none
  | _ => none

def items? : (value : Value) → Option { items : List Value // sizeOf items < sizeOf value }
  | list items => some ⟨items, by simp⟩
  | _ => none

end Value

end FlatAggregate
