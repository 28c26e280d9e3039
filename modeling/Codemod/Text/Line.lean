import Codemod.Text.Blank
import Codemod.Text.Basic

/-!
# Lines around a place

A line ends at a line feed. The text before a place ends with the front of the place's line, and
the text behind it starts with the back of that line.
-/

namespace Codemod.Text

/-- The front of a line: what follows the last line feed of the text before a place. -/
def lineFront (before : List Char) : List Char :=
  (before.reverse.takeWhile (· ≠ '\n')).reverse

/-- The back of a line: what precedes the first line feed of the text behind a place. -/
def lineBack (behind : List Char) : List Char :=
  behind.takeWhile (· ≠ '\n')

/-- The number of the line that a place stands on, counted from one. -/
def lineNumber (before : List Char) : Nat :=
  before.count '\n' + 1

/-- The parts of a text between separators. -/
def splitOn (separator : Char) : List Char → List (List Char)
  | [] => [[]]
  | c :: cs =>
    if c = separator then [] :: splitOn separator cs
    else
      match splitOn separator cs with
      | [] => [[c]]
      | part :: parts => (c :: part) :: parts

/-- The lines of a text, without the line feeds between them. -/
def splitLines (cs : List Char) : List (List Char) := splitOn '\n' cs

/-- Some texts with a separator between them. -/
def joinWith (separator : List Char) : List (List Char) → List Char
  | [] => []
  | [t] => t
  | t :: ts => t ++ separator ++ joinWith separator ts

/-- Characters that end a line for a reader: line feeds, carriage returns, vertical tabs, form
feeds, three of the information separators and the Unicode line breaks. -/
def isLineBreak (c : Char) : Bool :=
  (10 ≤ c.val && c.val ≤ 13) || (0x1C ≤ c.val && c.val ≤ 0x1E) || c.val = 0x85 ||
    c.val = 0x2028 || c.val = 0x2029

/-- The lines of a text for a reader, each with the break that ends it. A carriage return and a line
feed are one break. -/
def keptLines : List Char → List (List Char)
  | [] => []
  | '\r' :: '\n' :: cs => ['\r', '\n'] :: keptLines cs
  | c :: cs =>
    if isLineBreak c then [c] :: keptLines cs
    else
      match keptLines cs with
      | [] => [[c]]
      | line :: lines => (c :: line) :: lines

/-- A text with line feeds in place of all carriage returns and pairs of both. -/
def unifyBreaks : List Char → List Char
  | [] => []
  | '\r' :: '\n' :: cs => '\n' :: unifyBreaks cs
  | c :: cs => (if c = '\r' then '\n' else c) :: unifyBreaks cs

end Codemod.Text
