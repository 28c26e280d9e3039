import Codemod.Text.Table

/-!
# Word characters

Words are made of letters, numbers and underscores; the letters and numbers are those of Unicode.
-/

namespace Codemod.Text

/-- Letters, numbers and the underscore. -/
def isWordChar (c : Char) : Bool :=
  if c.toNat < 0x80 then c.isAlphanum || c = '_' else isWithin wordBounds c.toNat

/-- Decimal digits. -/
def isDecimal (c : Char) : Bool :=
  if c.toNat < 0x80 then c.isDigit else isWithin digitBounds c.toNat

/-- Whether exactly one side of a place in a text is a word character. -/
def isWordEdge (before after : Option Char) : Bool :=
  (before.any isWordChar) != (after.any isWordChar)

end Codemod.Text
