import FlatAggregate.Document.Mismatch

/-!
# Shapes of records

The shape of a record lists its fields, with a reader for each that enters what it reads into a
draft, and says what becomes of the draft in the end. A format that can read a record by its shape
is a `DocumentReader`; what to read is thus said once for all formats.

In a closed record unknown members are passed over, and a format may take a list of the fields in
order in its place. An open record keeps its unknown members as values.

`close` ends a record given by name and `closeList` one given as a list; they differ in how they
tell that a required field is missing. `RecordShape.expectedList` is what such a list has to be.
-/

namespace FlatAggregate

structure Field (m : Type → Type) (σ : Type) where
  name : String
  required : Bool
  read : σ → m σ

/-- A record of type `α`, read by way of drafts of type `σ`. -/
structure RecordShape (m : Type → Type) (σ α : Type) where
  /-- What to call the record. -/
  expected : String
  fields : List (Field m σ)
  /-- How an open record keeps an unknown member. -/
  keep : Option (String → Value → σ → σ) := none
  finish : σ → Except Mismatch α

namespace RecordShape

variable {m : Type → Type} {σ α : Type}

def field? (shape : RecordShape m σ α) (name : String) : Option (Field m σ) :=
  shape.fields.find? (·.name = name)

/-- Ends a record given by name when the fields `seen` have been read: a required one that is not
among them is missing. -/
def close (shape : RecordShape m σ α) (seen : List String) (draft : σ) : Except Mismatch α :=
  match shape.fields.find? fun field => field.required && !seen.contains field.name with
  | some field => .error (.missingField field.name)
  | none => shape.finish draft

def expectedList (shape : RecordShape m σ α) : String :=
  shape.expected ++ " with " ++ toString shape.fields.length ++ " elements"

/-- Ends a record given as a list of its first `count` fields: the list is too short if a required
field comes later. -/
def closeList (shape : RecordShape m σ α) (count : Nat) (draft : σ) : Except Mismatch α :=
  match (shape.fields.zipIdx.drop count).find? fun (field, _) => field.required with
  | some (_, index) => .error (.length index shape.expectedList)
  | none => shape.finish draft

end RecordShape

class DocumentReader (m : Type → Type) extends Monad m where
  text : m String
  /-- Text, or null for none. -/
  optionalText : m (Option String)
  /-- One of several named alternatives without content. -/
  choice : {α : Type} → List (String × α) → m α
  list : {α : Type} → m α → m (List α)
  record : {σ α : Type} → RecordShape m σ α → σ → m α

end FlatAggregate
