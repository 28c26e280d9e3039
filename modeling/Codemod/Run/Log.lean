import Codemod.Session

/-!
# The log of a run

Lines for a reader, with their weight.
-/

namespace Codemod

/-- The weight of a line. -/
inductive Level where
  | warning | error
  deriving DecidableEq, Repr

/-- The name of a weight. -/
def Level.name : Level → String
  | warning => "WARNING"
  | error => "ERROR"

/-- A line of the log. -/
structure LogLine where
  level : Level
  text : List Char
  deriving DecidableEq, Repr

namespace LogLine

/-- A line of the log as a text. -/
def render (l : LogLine) : List Char := l.level.name.toList ++ ' ' :: l.text

/-- A warning. -/
def warning (text : List Char) : LogLine := ⟨.warning, text⟩

/-- An error. -/
def error (text : List Char) : LogLine := ⟨.error, text⟩

/-- A notice as a line of the log. -/
def ofNotice (n : Notice) : LogLine := warning n.message.toList

end LogLine

end Codemod
