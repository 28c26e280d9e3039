import Codemod.Files.Tree
import Codemod.Text.Order

/-!
# Discovering source files

The files that some paths stand for: a file stands for itself, and a directory for the files below
it. Only files with one of some suffixes count, and directories of some names are passed over. The
files of a directory come before those of its subdirectories, both in the order of their names.
-/

namespace Codemod

/-- What a search comes across: a file, or a path where nothing is. -/
inductive Sighting where
  | file (path : Path)
  | missing (path : Path)
  deriving DecidableEq, Repr

/-- What is searched for. -/
structure Search where
  /-- The suffixes of files, in any letter case. -/
  extensions : List (List Char)
  /-- The names of directories to pass over. -/
  excluded : List (List Char)

namespace Search

/-- Whether a name has one of the suffixes. -/
def admits (s : Search) (name : List Char) : Bool :=
  (s.extensions.map Text.lower).contains (Text.lower (Path.suffixOf name))

/-- The files among some entries that count, in the order of their names. -/
def filesOf (s : Search) (base : Path) (entries : List Entry) : List Path :=
  (Text.sorted ((entries.filter fun e => e.isFile && s.admits e.name).map Entry.name)).map
    base.child

/-- The files of a directory and those of its subdirectories, the latter in the order of the names
of the subdirectories. -/
def assemble (files : List Path) (below : List (List Char × List Path)) : List Path :=
  files ++ (Text.sortBy Prod.fst below).flatMap Prod.snd

mutual

/-- The files below an entry, under its name. Only directories have some. -/
def below (s : Search) (base : Path) : Entry → List (List Char × List Path)
  | .file .. => []
  | .directory name entries =>
    if s.excluded.contains name then []
    else
      let here := base.child name
      [(name, assemble (s.filesOf here entries) (belowAll s here entries))]

/-- The files below some entries, under their names. -/
def belowAll (s : Search) (base : Path) : List Entry → List (List Char × List Path)
  | [] => []
  | e :: es => below s base e ++ belowAll s base es

end

/-- The files of a directory with some entries. -/
def walk (s : Search) (base : Path) (entries : List Entry) : List Path :=
  assemble (s.filesOf base entries) (s.belowAll base entries)

/-- What a path stands for. -/
def sightings (s : Search) (f : Folder) (p : Path) : List Sighting :=
  match f.find? p with
  | some (.file _) => if s.admits p.name then [.file p] else []
  | some (.directory entries) => (s.walk p entries).map .file
  | none => [.missing p]

/-- What some paths stand for. -/
def discover (s : Search) (f : Folder) (paths : List Path) : List Sighting :=
  paths.flatMap (s.sightings f)

end Search

end Codemod
