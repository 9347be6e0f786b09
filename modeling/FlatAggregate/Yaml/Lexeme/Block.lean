import FlatAggregate.Yaml.Cursor
import FlatAggregate.Yaml.Token

/-!
# Scalars in blocks

The text of a block scalar are the lines below its header that are indented. A literal scalar keeps
its line breaks; a folded one joins lines that do not begin with a blank. The header may fix the
indentation and tells what becomes of the breaks at the end.

`header` reads the line of the sign, `blockLines` the lines below it, and `blockText` puts their
text together. Between two lines stands what `between` says for the style.
-/

namespace FlatAggregate.Yaml.Lexing

/-- What becomes of the line breaks at the end of a block scalar. -/
inductive Chomping where
  /-- They are dropped. -/
  | strip
  /-- Only the first is kept. -/
  | clip
  /-- They are kept. -/
  | keep
  deriving DecidableEq, Repr

def chomping : Lexing (Option Chomping) := do
  match ← peek with
  | some '-' => skip 1; return some .strip
  | some '+' => skip 1; return some .keep
  | _ => return none

def increment : Lexing (Option Nat) := do
  match ← peek with
  | some c =>
    if c.isDigit then
      require (c ≠ '0')
      skip 1
      return some (c.toNat - '0'.toNat)
    else return none
  | none => return none

def header : Lexing (Chomping × Option Nat) := do
  match ← chomping with
  | some chosen =>
    let columns ← increment
    endLine
    return (chosen, columns)
  | none =>
    let columns ← increment
    let chosen ← if columns.isSome then chomping else pure none
    endLine
    return (chosen.getD .clip, columns)

/-- Moves past empty lines to the column `indent`, or to the first character that is no space if
the indentation is not known yet. Gives the line breaks and the rightmost column that was reached.
A tab must not stand in the indentation. -/
def indentation (indent : Option Nat) : (fuel : Nat) → Lexing (List Char × Nat)
  | 0 => return ([], 0)
  | fuel + 1 => do
    let spaces := (← rest).takeWhile (· = ' ')
    let before := (← get).mark.column
    skip ((indent.map fun indent => min spaces.length (indent - before)).getD spaces.length)
    let column := (← get).mark.column
    match ← peek with
    | some c =>
      require (c ≠ '\t' || indent.any (· ≤ column))
      if isBreak c then
        skip 1
        let (breaks, widest) ← indentation indent fuel
        return (c :: breaks, max column widest)
      else return ([], column)
    | none => return ([], column)

/-- A line of a block scalar, with its line break, if it has one, and those of the empty lines that
follow. -/
structure BlockLine where
  text : List Char
  ending : List Char
  emptyLines : List Char

def BlockLine.startsBlank (line : BlockLine) : Bool := line.text.head?.any isBlank

def blockLines (indent : Nat) : (fuel : Nat) → Lexing (List BlockLine)
  | 0 => return []
  | fuel + 1 => do
    let ⟨rest, mark⟩ ← get
    if mark.column ≠ indent || rest.isEmpty then return []
    let text ← takeWhile fun c => !isBreak c
    let ending := (← Lexing.rest).take 1
    skip 1
    let (emptyLines, _) ← indentation indent (← bound)
    return ⟨text, ending, emptyLines⟩ :: (← blockLines indent fuel)

def between (style : Style) (line next : BlockLine) : List Char :=
  let joins := style = .folded && line.ending = ['\n'] && !line.startsBlank && !next.startsBlank
  (if !joins then line.ending else if line.emptyLines.isEmpty then [' '] else []) ++
    line.emptyLines

def blockText (style : Style) (chomping : Chomping) (line : BlockLine) : List BlockLine → List Char
  | [] =>
    line.text ++ (if chomping = .strip then [] else line.ending) ++
      (if chomping = .keep then line.emptyLines else [])
  | next :: more => line.text ++ between style line next ++ blockText style chomping next more

/-- Reads a block scalar; its lines lie right of its parent, at column `indent` or after. -/
def block (style : Style) (indent : Nat) : Lexing TokenKind := do
  skip 1
  let (chomping, columns) ← header
  let fixed := columns.map (indent - 1 + ·)
  let (leading, widest) ← indentation fixed (← bound)
  let lines ← blockLines (fixed.getD (max widest (max indent 1))) (← bound)
  let text :=
    match lines with
    | [] => if chomping = .keep then leading else []
    | first :: more => leading ++ blockText style chomping first more
  return .scalar (String.ofList text) style

end FlatAggregate.Yaml.Lexing
