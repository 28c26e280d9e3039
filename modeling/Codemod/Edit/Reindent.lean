import Codemod.Text.Line

/-!
# Reindenting

The inside of a wrapper is turned into a text that can stand in place of the wrapper. One line
break at its front and one at its end are dropped, the margin that all its lines share is removed,
and all lines but the first are put at the indentation of the wrapper.
-/

namespace Codemod.Reindent

/-- A text without the line break at its front, and whether there was one. -/
def splitFirstBreak : List Char → List Char × Bool
  | '\r' :: '\n' :: cs => (cs, true)
  | '\n' :: cs => (cs, true)
  | cs => (cs, false)

/-- A text without its last line break when only spaces and tabs follow it. -/
def dropTrailingBlank (cs : List Char) : List Char :=
  let tail := Text.lineFront cs
  if cs.contains '\n' && tail.all Text.isIndent then
    let head := cs.take (cs.length - tail.length - 1)
    if head.getLast? = some '\r' then head.dropLast else head
  else cs

/-- The longest text that two texts start with. -/
def sharedFront : List Char → List Char → List Char
  | a :: as, b :: bs => if a = b then a :: sharedFront as bs else []
  | _, _ => []

/-- A line, or nothing when it has only spaces and tabs. -/
def emptied (line : List Char) : List Char :=
  if line.all Text.isIndent then [] else line

/-- The longest run of spaces and tabs that all lines start with that have more than those. -/
def margin (lines : List (List Char)) : List Char :=
  match (lines.filter fun l => !l.all Text.isIndent).map (·.takeWhile Text.isIndent) with
  | [] => []
  | m :: ms => ms.foldl sharedFront m

/-- A line without the margin. -/
def dropMargin (m line : List Char) : List Char :=
  if m.isPrefixOf line then line.drop m.length else line

/-- The lines without the margin that they share. -/
def dedent (lines : List (List Char)) : List (List Char) :=
  lines.map fun l => dropMargin (margin lines) (emptied l)

/-- A line at an indentation, or what is left of a blank line. -/
def indented (indent line : List Char) : List Char :=
  if line.all Text.isSpace then Text.trim Text.isIndent line else indent ++ line

/-- The inside of a wrapper as a text that stands at the indentation of the wrapper. A text that
does not start with a line break is left as it is. -/
def reindent (body indent : List Char) : List Char :=
  match splitFirstBreak body with
  | (body, false) => body
  | (body, true) =>
    match dedent (Text.splitLines (dropTrailingBlank body)) with
    | [] => []
    | first :: rest => Text.joinWith ['\n'] (first :: rest.map (indented indent))

end Codemod.Reindent
