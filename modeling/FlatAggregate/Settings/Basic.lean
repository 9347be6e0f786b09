/-!
# Generator settings

The settings govern how aliases are spelled. The shape of a query does not depend on them.

Hints and counters have ranges, each named by `Ranged`. `outOfRange` lists the settings that are not
in theirs, in the order of their names, and settings are `Valid` when there are none.
-/

namespace FlatAggregate

structure Settings where
  /-- The most letters that a hint has. -/
  maxHintLength : Nat := 20
  /-- The least digits that a counter has. -/
  counterWidth : Nat := 4
  /-- Whether aliases carry hints at all. -/
  hints : Bool := true
  deriving DecidableEq, Repr

namespace Settings

inductive Ranged where
  | maxHintLength
  | counterWidth
  deriving DecidableEq, Repr

def Ranged.name : Ranged → String
  | maxHintLength => "max_name_hint_length"
  | counterWidth => "alias_counter_width"

def Ranged.message : Ranged → String
  | maxHintLength => "Name hint length must be between 1 and 64"
  | counterWidth => "Alias counter width must be between 1 and 10"

/-- Whether a setting lies in its range, 1 to 64 and 1 to 10. -/
def inRange (settings : Settings) : Ranged → Bool
  | .maxHintLength => 1 ≤ settings.maxHintLength && settings.maxHintLength ≤ 64
  | .counterWidth => 1 ≤ settings.counterWidth && settings.counterWidth ≤ 10

/-- The settings outside their ranges, in the order of their names. -/
def outOfRange (settings : Settings) : List Ranged :=
  [Ranged.counterWidth, .maxHintLength].filter fun ranged => !settings.inRange ranged

def Valid (settings : Settings) : Prop :=
  1 ≤ settings.maxHintLength ∧ settings.maxHintLength ≤ 64 ∧
    1 ≤ settings.counterWidth ∧ settings.counterWidth ≤ 10

instance (settings : Settings) : Decidable settings.Valid :=
  inferInstanceAs (Decidable (_ ∧ _ ∧ _ ∧ _))

theorem outOfRange_eq_nil_iff (settings : Settings) :
    settings.outOfRange = [] ↔ settings.Valid := by
  simp [outOfRange, inRange, Valid, List.filter_cons]
  grind

theorem valid_default : ({} : Settings).Valid := by decide

end Settings

end FlatAggregate
