import FlatAggregate.Yaml.Cursor
import FlatAggregate.Yaml.Token

/-!
# Scalars that flow

Plain scalars and scalars in quotes may run over several lines. The gap between two words is then
folded: a single line break is read as a space, and of several the first is dropped.

`plain` reads a scalar without quotes word by word: what ends a word depends on whether a flow
collection is open. `quoted` reads one in either sort of quotes. Only double quotes know escapes;
those by number have two, four or eight hexadecimal digits.
-/

namespace FlatAggregate.Yaml.Lexing

def folded (gap : List Char) : List Char :=
  match gap.filter isBreak with
  | [] => gap
  | ['\n'] => [' ']
  | '\n' :: more => more
  | breaks => breaks

def breaksLine (gap : List Char) : Bool := gap.any isBreak

/-- Whether a tab stands left of `indent` on a line; `column` tells where the gap goes on. -/
def tabLeftOf (indent : Nat) : (column : Nat) → (gap : List Char) → Bool
  | _, [] => false
  | column, c :: rest =>
    if isBreak c then tabLeftOf indent 0 rest
    else (c = '\t' && column < indent) || tabLeftOf indent (column + 1) rest

def isFlowSign (c : Char) : Bool := ",[]\x7b\x7d".toList.contains c

/-- The word of a plain scalar that a source begins with. A colon belongs to a word unless a gap
follows; in a flow collection it must not stand before a sign. -/
def word? (flow : Bool) : List Char → Option (List Char)
  | [] => some []
  | ':' :: next :: rest =>
    if flow && (isFlowSign next || next = '?') then none
    else if isGap next then some []
    else (':' :: ·) <$> word? flow (next :: rest)
  | [':'] => some []
  | c :: rest =>
    if isGap c || flow && isFlowSign c then some [] else (c :: ·) <$> word? flow rest

def word (flow : Bool) : Lexing (List Char) := do
  match word? flow (← rest) with
  | some word => skip word.length; return word
  | none => failure

/-- Reads the further words of a plain scalar, as long as they are right of its parent. Tells also
whether a line was broken after the last word. -/
def furtherWords (flow : Bool) (indent : Nat) : (fuel : Nat) → Lexing (List Char × Bool)
  | 0 => return ([], false)
  | fuel + 1 => do
    let gap ← takeWhile isGap
    require (!tabLeftOf indent 0 (gap.dropWhile isBlank))
    let ⟨rest, mark⟩ ← get
    let ends := gap.isEmpty || (!flow && mark.column < indent) ||
      (mark.column = 0 && startsDocumentLine rest) || rest.head? = some '#'
    let next ← if ends then pure [] else word flow
    if next.isEmpty then return ([], breaksLine gap)
    let (further, broken) ← furtherWords flow indent fuel
    return (folded gap ++ next ++ further, broken)

/-- Reads a plain scalar whose further lines begin at column `indent` or after. -/
def plain (flow : Bool) (indent : Nat) : Lexing (TokenKind × Bool) := do
  let first ← word flow
  let (further, broken) ← furtherWords flow indent (← bound)
  return (.scalar (String.ofList (first ++ further)) .plain, broken)

def numbered (digits : Nat) : Lexing Char := do
  let shown := (← rest).take digits
  require (shown.length = digits)
  match hexNumber? shown with
  | some code =>
    require (decide code.isValidChar)
    skip digits
    return Char.ofNat code
  | none => failure

def escaped : Lexing Char := do
  let some c ← peek | failure
  skip 1
  match c with
  | '0' => return '\x00'
  | 'a' => return '\x07'
  | 'b' => return '\x08'
  | 't' | '\t' => return '\t'
  | 'n' => return '\n'
  | 'v' => return '\x0b'
  | 'f' => return '\x0c'
  | 'r' => return '\r'
  | 'e' => return '\x1b'
  | ' ' | '"' | '/' | '\\' => return c
  | 'N' => return '\u0085'
  | '_' => return '\u00a0'
  | 'L' => return '\u2028'
  | 'P' => return '\u2029'
  | 'x' => numbered 2
  | 'u' => numbered 4
  | 'U' => numbered 8
  | _ => failure

def quote (double : Bool) : Char := if double then '"' else '\''

def isQuotedPlain (double : Bool) (c : Char) : Bool :=
  !(isGap c || c = quote double || double && c = '\\')

/-- Reads a scalar in quotes up to the closing one. In single quotes a quote is written twice; in
double quotes a backslash begins an escape, or joins two lines. -/
def quotedChars (double : Bool) : (fuel : Nat) → Lexing (List Char)
  | 0 => failure
  | fuel + 1 => do
    let ⟨rest, mark⟩ ← get
    require (!(mark.column = 0 && startsDocumentLine rest))
    match rest with
    | [] => failure
    | c :: after =>
      if isGap c then
        let gap ← takeWhile isGap
        return folded gap ++ (← quotedChars double fuel)
      else if isQuotedPlain double c then
        let plain ← takeWhile (isQuotedPlain double)
        return plain ++ (← quotedChars double fuel)
      else if double && c = '\\' then
        skip 1
        if ← sees isBreak then
          skip 1
          let gap ← takeWhile isGap
          return gap.filter isBreak ++ (← quotedChars double fuel)
        else return (← escaped) :: (← quotedChars double fuel)
      else if !double && after.head? = some '\'' then
        skip 2
        return '\'' :: (← quotedChars double fuel)
      else
        skip 1
        return []

def quoted (double : Bool) : Lexing TokenKind := do
  skip 1
  return .scalar (String.ofList (← quotedChars double (← bound))) .quoted

end FlatAggregate.Yaml.Lexing
