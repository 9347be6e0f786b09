import FlatAggregate.Document.ReadError
import FlatAggregate.Settings.Basic

/-!
# Settings that are refused

Settings come from variables of the environment or from a YAML document. They are refused when a
variable has a value of the wrong kind, when the document cannot be read, or when what is read is
out of range.

The message of an error tells what was read, by `subject?`, and why it is refused, by `reason?`.
Settings that were read but are out of range have no subject. `checked` is the last step of reading:
it gives the settings back if all of them are in range.
-/

namespace FlatAggregate

inductive ValueFault where
  | empty
  | notDigit
  | tooLarge
  | notFlag
  deriving DecidableEq, Repr

def ValueFault.message : ValueFault → String
  | empty => "cannot parse integer from empty string"
  | notDigit => "invalid digit found in string"
  | tooLarge => "number too large to fit in target type"
  | notFlag => "provided string was not \x60true\x60 or \x60false\x60"

inductive SettingsError where
  | badVariable (name value : String) (fault : ValueFault)
  /-- The document with the given text is not read. -/
  | document (text : String) (error : ReadError)
  | outOfRange (settings : List Settings.Ranged)
  deriving DecidableEq, Repr

namespace SettingsError

def subject? : SettingsError → Option (String × String)
  | .badVariable name value _ => some (name, value)
  | .document _ .unreadable => some ("yaml_file", "file read failed")
  | .document text _ => some ("yaml_content", text)
  | .outOfRange _ => none

def reason? : SettingsError → Option String
  | .badVariable _ _ fault => some fault.message
  | .document _ (.unfit reason) => some reason
  | _ => none

def message? (error : SettingsError) : Option String := do
  let (name, value) ← error.subject?
  return "Parse error for " ++ name ++ ": " ++ value ++ " - " ++ (← error.reason?)

end SettingsError

namespace Settings

def checked (settings : Settings) : Except SettingsError Settings :=
  match settings.outOfRange with
  | [] => .ok settings
  | outside => .error (.outOfRange outside)

theorem checked_eq_ok_iff (settings result : Settings) :
    settings.checked = .ok result ↔ result = settings ∧ settings.Valid := by
  rw [← outOfRange_eq_nil_iff, checked]
  split
  · next h => simp only [h, Except.ok.injEq, and_true]; exact eq_comm
  · next h => simp [show settings.outOfRange ≠ [] from h]

end Settings

end FlatAggregate
