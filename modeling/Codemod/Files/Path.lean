import Codemod.Text.Case
import Codemod.Text.Line

/-!
# Paths

A path is a root, which is empty for a relative path, and the names on the way. Empty names and
single dots are dropped, double dots are kept.
-/

namespace Codemod

/-- A path to a file or a directory. -/
structure Path where
  root : List Char
  parts : List (List Char)
  deriving DecidableEq, Repr

namespace Path

/-- The root of a text with some slashes at its front. Two slashes are a root of their own. -/
def rootOf (slashes : Nat) : List Char :=
  if slashes = 0 then [] else if slashes = 2 then ['/', '/'] else ['/']

/-- The path that a text stands for. -/
def ofText (cs : List Char) : Path :=
  ⟨rootOf (cs.takeWhile (· = '/')).length,
    (Text.splitOn '/' cs).filter fun p => !p.isEmpty && p ≠ ['.']⟩

/-- A path as a text. The empty path is a single dot. -/
def render (p : Path) : List Char :=
  let shown := p.root ++ Text.joinWith ['/'] p.parts
  if shown.isEmpty then ['.'] else shown

/-- The path to something inside of a directory. -/
def child (p : Path) (name : List Char) : Path := ⟨p.root, p.parts ++ [name]⟩

/-- The last name of a path. -/
def name (p : Path) : List Char := p.parts.getLast?.getD []

/-- The suffix of a name: its last dot and what follows, unless one of the sides of the dot is
empty. -/
def suffixOf (name : List Char) : List Char :=
  let tail := (name.reverse.takeWhile (· ≠ '.')).reverse
  if !tail.isEmpty && tail.length + 1 < name.length then '.' :: tail else []

/-- The suffix of a path. -/
def suffix (p : Path) : List Char := suffixOf p.name

/-- The languages of the supported suffixes. -/
def languages : List (String × String) :=
  [(".ts", "typescript"), (".mts", "typescript"), (".cts", "typescript"), (".tsx", "tsx"),
    (".js", "tsx"), (".jsx", "tsx"), (".mjs", "tsx"), (".cjs", "tsx")]

/-- The language of the file at a path, by its suffix in any letter case. -/
def language? (p : Path) : Option String :=
  let lowered := Text.lower p.suffix
  (languages.find? (·.1.toList = lowered)).map Prod.snd

end Path

end Codemod
