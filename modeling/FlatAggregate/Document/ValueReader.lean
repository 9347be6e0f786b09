import FlatAggregate.Document.Shape

/-!
# Reading from values

Values are read by shape like any other document. A record may have keys other than text: numbers
are passed over like unknown names, anything else is no name at all.

`members` and `fields` read a record by name and in order; both go on from a draft, and `members`
also from the names that were read before, for a field must not be there twice. Alternatives are
known by name, and under a key also by number.
-/

namespace FlatAggregate

abbrev ValueReader := ReaderT Value (Except Mismatch)

namespace ValueReader

def text : ValueReader String
  | .text value => .ok value
  | other => .error (.type other.found "a string")

def optionalText : ValueReader (Option String)
  | .null => .ok none
  | other => some <$> text other

def list {α : Type} (item : ValueReader α) : ValueReader (List α)
  | .list items => items.mapM item
  | other => .error (.type other.found "a sequence")

def named {α : Type} (variants : List (String × α)) (name : String) : Except Mismatch α :=
  match variants.lookup name with
  | some variant => .ok variant
  | none => .error (.unknownVariant name (variants.map Prod.fst))

def keyed {α : Type} (variants : List (String × α)) : Value → Except Mismatch α
  | .text name => named variants name
  | .integer (.ofNat index) =>
    match variants[index]? with
    | some (_, variant) => .ok variant
    | none =>
      .error (.value (.integer index)
        ("variant index 0 <= i < " ++ toString variants.length))
  | other => .error (.type other.found "variant identifier")

/-- An alternative without content: its name, or a record with the name as its only key. -/
def choice {α : Type} (variants : List (String × α)) : ValueReader α
  | .text name => named variants name
  | .record [(key, content)] => do
    let variant ← keyed variants key
    match content with
    | .null | .record [] => return variant
    | other => .error (.type other.found "unit")
  | .record _ => .error (.value .record "map with a single key")
  | other => .error (.type other.found "string or map")

variable {σ α : Type}

def members (shape : RecordShape ValueReader σ α) :
    List (Value × Value) → List String → σ → Except Mismatch α
  | [], seen, draft => shape.close seen draft
  | (.text name, value) :: rest, seen, draft =>
    match shape.field? name with
    | some field =>
      if seen.contains name then .error (.duplicateField name)
      else do members shape rest (name :: seen) (← field.read draft value)
    | none =>
      match shape.keep with
      | some keep => members shape rest seen (keep name value draft)
      | none => members shape rest seen draft
  | (.integer (.ofNat _), _) :: rest, seen, draft => members shape rest seen draft
  | (key, _) :: _, _, _ => .error (.type key.found "field identifier")

def fields : List (Field ValueReader σ) → List Value → σ → Except Mismatch (σ × Nat)
  | field :: rest, value :: values, draft => do
    let (draft, count) ← fields rest values (← field.read draft value)
    return (draft, count + 1)
  | [], _ :: _, draft => .ok (draft, 0)
  | _, [], draft => .ok (draft, 0)

/-- Reads a record by its members, or a closed one from a list of its fields. -/
def record (shape : RecordShape ValueReader σ α) (draft : σ) : ValueReader α
  | .record given => members shape given [] draft
  | .list items =>
    if shape.keep.isSome then .error (.type .list shape.expected)
    else do
      let (result, count) ← fields shape.fields items draft
      let result ← shape.closeList count result
      if shape.fields.length < items.length then
        .error (.length items.length "fewer elements in array")
      else return result
  | other => .error (.type other.found shape.expected)

instance : DocumentReader ValueReader where
  text := text
  optionalText := optionalText
  choice := choice
  list := list
  record := record

end ValueReader

end FlatAggregate
