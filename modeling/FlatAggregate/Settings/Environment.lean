import FlatAggregate.Settings.Error

/-!
# Settings from the environment

Each setting has a variable. A variable that is not set leaves its setting at the default. Values
are read in the order of the settings and the first faulty one is told; ranges are looked at last.

Whether a generator keeps its queries has a variable too, but there a faulty value counts as not
set.

A number is written in decimal digits, perhaps after a plus sign, and stays below `2 ^ 64`; a truth
value is `true` or `false`. An `Environment` lists the variables that are set.
-/

namespace FlatAggregate

abbrev Environment := List (String × String)

namespace Environment

/-- Appends decimal digits to a number that has to stay below `2 ^ 64`. -/
def digits : Nat → List Char → Except ValueFault Nat
  | number, [] => .ok number
  | number, c :: rest =>
    if !c.isDigit then .error .notDigit
    else
      let more := number * 10 + (c.toNat - '0'.toNat)
      if more < UInt64.size then digits more rest else .error .tooLarge

/-- Reads a number: decimal digits, perhaps after a plus sign. -/
def count (value : String) : Except ValueFault Nat :=
  match value.toList with
  | [] => .error .empty
  | ['+'] => .error .notDigit
  | '+' :: rest => digits 0 rest
  | all => digits 0 all

def flag (value : String) : Except ValueFault Bool :=
  if value = "true" then .ok true
  else if value = "false" then .ok false
  else .error .notFlag

def read {α : Type} (environment : Environment) (name : String)
    (reader : String → Except ValueFault α) (default : α) : Except SettingsError α :=
  match environment.lookup name with
  | none => .ok default
  | some value => (reader value).mapError (.badVariable name value)

def settings (environment : Environment) : Except SettingsError Settings := do
  let maxHintLength ← environment.read "AGGREGATE_SQL_MAX_NAME_HINT_LENGTH" count 20
  let counterWidth ← environment.read "AGGREGATE_SQL_ALIAS_COUNTER_WIDTH" count 4
  let hints ← environment.read "AGGREGATE_SQL_NAME_HINTS" flag true
  Settings.checked { maxHintLength, counterWidth, hints }

/-- Whether queries are kept; they are unless the environment says otherwise. -/
def cacheEnabled (environment : Environment) : Bool :=
  (environment.read "AGGREGATE_SQL_CACHE_ENABLED" flag true).toOption.getD true

theorem settings_nil : settings [] = .ok {} := rfl

theorem cacheEnabled_nil : cacheEnabled [] = true := rfl

end Environment

end FlatAggregate
