import Codemod.Pattern.Basic
import Codemod.Text.Word

/-!
# Markers

A tag is recognised in a text by its first attribute `name` or `src`, whichever quotes are used, or
word for word when it has no such attribute.
-/

namespace Codemod

/-- What a tag is recognised by. -/
inductive Marker where
  | byAttribute (name value : List Char)
  | verbatim (tag : List Char)
  deriving DecidableEq, Repr

namespace Marker

/-- Quotes of either sort. -/
def isQuote (c : Char) : Bool := c = '"' || c = '\''

/-- The value in quotes that a text starts with. -/
def quotedValue? : List Char → Option (List Char)
  | [] => none
  | q :: rest =>
    let value := rest.takeWhile (!isQuote ·)
    if isQuote q && !value.isEmpty && value.length < rest.length then some value else none

/-- The value of an attribute that a text starts with. -/
def valueOf? (name text : List Char) : Option (List Char) :=
  let front := name ++ ['=']
  if front.isPrefixOf text then quotedValue? (text.drop front.length) else none

/-- The attribute that a text starts with. -/
def attributeAt? (text : List Char) : Option Marker :=
  ((valueOf? "name".toList text).map (byAttribute "name".toList)) <|>
    ((valueOf? "src".toList text).map (byAttribute "src".toList))

/-- The first attribute of a text that starts at the edge of a word. -/
def findAttribute? (before : Option Char) : List Char → Option Marker
  | [] => none
  | c :: cs =>
    let here := if Text.isWordEdge before (some c) then attributeAt? (c :: cs) else none
    here <|> findAttribute? (some c) cs

/-- The marker of a tag. -/
def ofTag (tag : List Char) : Marker := (findAttribute? none tag).getD (verbatim tag)

/-- The pattern that recognises a tag. -/
def pattern : Marker → Pattern
  | byAttribute name value =>
    .cat (.wordEdge true) (.cat (.literal (name ++ ['='])) (.cat .quote
      (.cat (.literal value) .quote)))
  | verbatim tag => .literal tag

/-- The characters before and up to the end of the first place where a tag is recognised. -/
def search (m : Marker) (text : List Char) : Option (Nat × Nat) := m.pattern.search text

/-- Whether a tag is recognised in a text. -/
def occursIn (m : Marker) (text : List Char) : Bool := m.pattern.occursIn text

end Marker

end Codemod
