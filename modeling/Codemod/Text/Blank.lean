/-!
# White space

Four sets of white space are in use. Texts are trimmed by the Unicode set, lines of bytes by the
ASCII set. A script may be spaced out with the separators of its grammar, and the decision where a
statement may end without a semicolon looks at the white space of the locale.
-/

namespace Codemod.Text

/-- Horizontal blanks: the space and the tab. -/
def isIndent (c : Char) : Bool := c = ' ' || c = '\t'

/-- White space of ASCII: the space, the tab and the four characters that end a line or a page. -/
def isAsciiSpace (c : Char) : Bool :=
  c = ' ' || (9 ≤ c.val && c.val ≤ 13)

/-- The separators of the Unicode category `Zs` beyond ASCII. -/
def isSpaceSeparator (c : Char) : Bool :=
  c.val = 0xA0 || c.val = 0x1680 || (0x2000 ≤ c.val && c.val ≤ 0x200A) ||
    c.val = 0x202F || c.val = 0x205F || c.val = 0x3000

/-- White space of Unicode, together with the four information separators of ASCII. -/
def isSpace (c : Char) : Bool :=
  isAsciiSpace c || (0x1C ≤ c.val && c.val ≤ 0x1F) || c.val = 0x85 || isSpaceSeparator c ||
    c.val = 0x2028 || c.val = 0x2029

/-- What separates the tokens of a script: ASCII white space, space separators, the two Unicode
line breaks and the invisible characters U+200B, U+2060 and U+FEFF. -/
def isTokenSpace (c : Char) : Bool :=
  isAsciiSpace c ||
    (0x80 ≤ c.val &&
      (isSpaceSeparator c || c.val = 0x2028 || c.val = 0x2029 || c.val = 0x200B ||
        c.val = 0x2060 || c.val = 0xFEFF))

/-- White space of the locale: Unicode white space without the spaces that do not break a line. -/
def isLocaleSpace (c : Char) : Bool :=
  isAsciiSpace c ||
    (0x80 ≤ c.val &&
      (c.val = 0x1680 || (0x2000 ≤ c.val && c.val ≤ 0x200A && c.val ≠ 0x2007) ||
        c.val = 0x2028 || c.val = 0x2029 || c.val = 0x205F || c.val = 0x3000))

/-- A text without the characters of a set at its front. -/
def trimStart (p : Char → Bool) (cs : List Char) : List Char :=
  cs.dropWhile p

/-- A text without the characters of a set at its end. -/
def trimEnd (p : Char → Bool) (cs : List Char) : List Char :=
  (cs.reverse.dropWhile p).reverse

/-- A text without the characters of a set at either end. -/
def trim (p : Char → Bool) (cs : List Char) : List Char :=
  trimEnd p (trimStart p cs)

end Codemod.Text
