import Codemod.Text.Case
import Codemod.Text.Order
import Codemod.Text.Quoted

/-!
# Receivers

A receiver decides from the text of an expression alone whether the expression denotes a value that
is known under some names: the name itself, the name with a question mark, a call of it without
arguments, the name as a property of `this`, and a call without arguments of a function that is
known to return the value, or whose name mentions the value.
-/

namespace Codemod

/-- The names of a value, and which functions return it. -/
structure Receiver where
  aliases : List (List Char)
  /-- The name that a function mentions when it returns the value. -/
  rootName : Option (List Char)
  /-- Functions that are known to return the value. -/
  indirections : List (List Char)
  /-- Whether only the known functions are trusted. -/
  strict : Bool

namespace Receiver

/-- A text in two parts: all of it but a line feed at its end, and that line feed. -/
def splitFinalBreak (text : List Char) : List Char × List Char :=
  if text.getLast? = some '\n' then (text.dropLast, ['\n']) else (text, [])

/-- A text without an ending, if it ends so. -/
def dropEnding? (ending text : List Char) : Option (List Char) :=
  if ending.isSuffixOf text then some (text.take (text.length - ending.length)) else none

/-- A text without the question mark at its end, a final line feed aside. -/
def stripOptional (text : List Char) : List Char :=
  let (front, back) := splitFinalBreak text
  (dropEnding? ['?'] front).getD front ++ back

/-- The function of a text that is a call without arguments, a final line feed aside. -/
def called? (text : List Char) : Option (List Char) :=
  let (front, back) := splitFinalBreak text
  (dropEnding? "()?".toList front <|> dropEnding? "()".toList front).map (· ++ back)

/-- The name that functions are searched for when none is given. -/
def defaultRootName : List Char := "api".toList

/-- Whether a function returns the value as far as its name tells. -/
def mentions (r : Receiver) (function : List Char) : Bool :=
  let token := Text.lower (r.rootName.getD defaultRootName)
  !token.isEmpty && Text.occursIn token (Text.lower function)

/-- Whether a call of a function without arguments returns the value. -/
def returns (r : Receiver) (function : List Char) : Bool :=
  r.aliases.contains function || r.indirections.contains function ||
    (!r.strict && r.mentions function)

/-- Whether a text is a name as a property of `this`, or starts with it and a dot. -/
def isOwn (text name : List Char) : Bool :=
  let own := "this.".toList ++ name
  let optional := "this?.".toList ++ name
  text = own || (own ++ ['.']).isPrefixOf text || text = optional || text = optional ++ ['?']

/-- Whether a text denotes the value. -/
def reaches (r : Receiver) (text : List Char) : Bool :=
  r.aliases.contains text || r.aliases.contains (stripOptional text) ||
    (called? text).any r.returns || r.aliases.any (isOwn text)

/-- A description of a receiver for a reader: its names in order. -/
def describe (r : Receiver) : List Char :=
  let shown := (Text.sortedSet r.aliases).map Text.quoted
  "ReachabilityClassifier([".toList ++ (", ".toList).intercalate shown ++ "])".toList

end Receiver

end Codemod
