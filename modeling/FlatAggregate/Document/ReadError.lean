/-!
# Reading errors

Three things keep a document from being read: its file cannot be had, its text is not of its format
at all, or it is something else than what was asked for.

`fileText` is the first of these steps: the bytes of a file have to be there, and to be text.
-/

namespace FlatAggregate

inductive ReadError where
  /-- There is no file, or it holds no text. -/
  | unreadable
  /-- The text breaks the rules of its format. -/
  | malformed
  /-- The text is refused for the given reason. -/
  | unfit (reason : String)
  deriving DecidableEq, Repr

def fileText (bytes : Option ByteArray) : Except ReadError String :=
  match bytes.bind String.fromUTF8? with
  | some text => .ok text
  | none => .error .unreadable

end FlatAggregate
