import FlatAggregate.Yaml.Source

/-!
# Cursors on YAML sources

A cursor stands between two characters of a source and knows its place. What is read moves it on.
There is one way to fail: the text breaks the rules of YAML.

`peek`, `sees`, `skip`, `takeWhile` and `expect` move along the characters, and `require` fails
unless a condition holds. Loops take the length of what is left as their bound: each of their steps
moves past a character at least.
-/

namespace FlatAggregate.Yaml

structure Cursor where
  rest : List Char
  mark : Mark := {}
  deriving Repr

abbrev Lexing := StateT Cursor Option

namespace Lexing

def rest : Lexing (List Char) := Cursor.rest <$> get

def peek : Lexing (Option Char) := List.head? <$> rest

def skip (count : Nat) : Lexing Unit :=
  modify fun ⟨rest, mark⟩ => ⟨rest.drop count, (rest.take count).foldl Mark.after mark⟩

def takeWhile (p : Char → Bool) : Lexing (List Char) := do
  let taken := (← rest).takeWhile p
  skip taken.length
  return taken

def require (condition : Bool) : Lexing Unit := if condition then pure () else failure

def expect (c : Char) : Lexing Unit := do
  require ((← peek) = some c)
  skip 1

def sees (p : Char → Bool) : Lexing Bool := do return (← peek).any p

/-- A bound for loops whose steps move past a character each. -/
def bound : Lexing Nat := do return (← rest).length + 1

/-- Moves past the rest of a line on which nothing but a comment may follow. -/
def endLine : Lexing Unit := do
  discard (takeWhile isBlank)
  if ← sees (· = '#') then discard (takeWhile fun c => !isBreak c)
  match ← peek with
  | none => pure ()
  | some c =>
    require (isBreak c)
    skip 1

end Lexing

def hexDigit? (c : Char) : Option Nat :=
  if '0' ≤ c ∧ c ≤ '9' then some (c.toNat - '0'.toNat)
  else if 'A' ≤ c ∧ c ≤ 'F' then some (c.toNat - 'A'.toNat + 10)
  else if 'a' ≤ c ∧ c ≤ 'f' then some (c.toNat - 'a'.toNat + 10)
  else none

def hexNumber? (digits : List Char) : Option Nat :=
  digits.foldlM (fun number c => (hexDigit? c).map (16 * number + ·)) 0

end FlatAggregate.Yaml
