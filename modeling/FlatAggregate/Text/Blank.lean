/-!
# Blank text

A text is blank when it holds nothing but white space, as Unicode defines it.

Names of aggregates and of tables must not be blank.
-/

namespace FlatAggregate.Text

/-- Whether a character has the property `White_Space`. -/
def isSpace (c : Char) : Bool :=
  let code := c.toNat
  (0x09 ≤ code && code ≤ 0x0d) || code == 0x20 || code == 0x85 || code == 0xa0 || code == 0x1680 ||
    (0x2000 ≤ code && code ≤ 0x200a) || code == 0x2028 || code == 0x2029 || code == 0x202f ||
    code == 0x205f || code == 0x3000

def isBlank (text : String) : Bool := text.toList.all isSpace

end FlatAggregate.Text
