import Codemod.Files.Path
import Codemod.Text.Utf8

/-!
# Directory trees

The files and directories below the working directory, as a value. Names are distinct within a
directory.
-/

namespace Codemod

/-- A file or a directory under its name. -/
inductive Entry where
  | file (name : List Char) (content : List UInt8)
  | directory (name : List Char) (entries : List Entry)
  deriving Inhabited

namespace Entry

/-- The name of an entry. -/
def name : Entry → List Char
  | file n _ => n
  | directory n _ => n

/-- Whether an entry is a file. -/
def isFile : Entry → Bool
  | file .. => true
  | directory .. => false

end Entry

mutual

/-- The files of an entry, with the names that lead to them. -/
def Entry.files : Entry → List (List (List Char) × List UInt8)
  | .file name content => [([name], content)]
  | .directory name entries => (filesOf entries).map fun file => (name :: file.1, file.2)

/-- The files of some entries, with the names that lead to them. -/
def filesOf : List Entry → List (List (List Char) × List UInt8)
  | [] => []
  | e :: es => e.files ++ filesOf es

end

/-- What is found at a path. -/
inductive Target where
  | file (content : List UInt8)
  | directory (entries : List Entry)

/-- The content of a directory. -/
structure Folder where
  entries : List Entry

namespace Folder

/-- The entry of a name. -/
def lookup? (entries : List Entry) (name : List Char) : Option Entry :=
  entries.find? (·.name = name)

/-- Follows names from the directory on top of a stack of directories, and double dots down the
stack. The result comes with the names from the bottom of the stack to it. -/
def follow : (stack : List (List Char × List Entry)) → (names : List (List Char)) →
    Option (List (List Char) × Target)
  | [], _ => none
  | (name, here) :: above, [] =>
    some (((name, here) :: above).reverse.tail.map Prod.fst, .directory here)
  | (name, here) :: above, n :: ns =>
    if n = ['.', '.'] then follow above ns
    else
      match lookup? here n with
      | none => none
      | some (.directory _ inner) => follow ((n, inner) :: (name, here) :: above) ns
      | some (.file _ content) =>
        if ns.isEmpty then
          some (((name, here) :: above).reverse.tail.map Prod.fst ++ [n], .file content)
        else none

/-- What a relative path leads to, together with the names that lead there. -/
def locate (f : Folder) (p : Path) : Option (List (List Char) × Target) :=
  if p.root.isEmpty then follow [([], f.entries)] p.parts else none

/-- What a relative path leads to. -/
def find? (f : Folder) (p : Path) : Option Target := (f.locate p).map Prod.snd

/-- Whether there is a file at a path. -/
def isFile (f : Folder) (p : Path) : Bool :=
  match f.find? p with
  | some (.file _) => true
  | _ => false

/-- Whether there is a directory at a path. -/
def isDirectory (f : Folder) (p : Path) : Bool :=
  match f.find? p with
  | some (.directory _) => true
  | _ => false

/-- The entries of a directory at a path. -/
def entriesAt (f : Folder) (p : Path) : List Entry :=
  match f.find? p with
  | some (.directory es) => es
  | _ => []

/-- Some entries with a file at the end of some names. Directories on the way are made when they
are not there. -/
def putAt (content : List UInt8) : (names : List (List Char)) → List Entry → List Entry
  | [], es => es
  | [n], es =>
    if (lookup? es n).isSome then
      es.map fun e => if e.name = n then .file n content else e
    else es ++ [.file n content]
  | n :: ns, es =>
    if (lookup? es n).isSome then
      es.map fun e =>
        match e with
        | .directory m inner => if m = n then .directory m (putAt content ns inner) else e
        | .file .. => e
    else es ++ [.directory n (putAt content ns [])]

/-- Some entries with a directory at the end of some names. -/
def makeAt : (names : List (List Char)) → List Entry → List Entry
  | [], es => es
  | n :: ns, es =>
    if (lookup? es n).isSome then
      es.map fun e =>
        match e with
        | .directory m inner => if m = n then .directory m (makeAt ns inner) else e
        | .file .. => e
    else es ++ [.directory n (makeAt ns [])]

/-- The directory tree after a file has been written. -/
def write (f : Folder) (p : Path) (content : List UInt8) : Folder :=
  match f.locate p with
  | some (names, _) => ⟨putAt content names f.entries⟩
  | none => ⟨putAt content p.parts f.entries⟩

/-- The directory tree after a directory has been made. -/
def makeDirectory (f : Folder) (p : Path) : Folder := ⟨makeAt p.parts f.entries⟩

/-- The files that are in a directory tree but not, with the same content, in an earlier one. -/
def newerThan (f earlier : Folder) : List (List (List Char) × List UInt8) :=
  (filesOf f.entries).filter fun file => !(filesOf earlier.entries).contains file

end Folder

/-- Why a file cannot be read. -/
inductive FileError where
  | missing (path : Path)
  | directory (path : Path)
  | notDirectory (path : Path)
  | undecodable (fault : Utf8.Fault)
  deriving DecidableEq, Repr

/-- An error in words. -/
def FileError.message : FileError → List Char
  | missing path => "[Errno 2] No such file or directory: ".toList ++ Text.quoted path.render
  | directory path => "[Errno 21] Is a directory: ".toList ++ Text.quoted path.render
  | notDirectory path => "[Errno 20] Not a directory: ".toList ++ Text.quoted path.render
  | undecodable fault => fault.message.toList

/-- The text of some bytes, with line feeds for all line breaks. -/
def Utf8.decodeText (bytes : List UInt8) : Except Utf8.Fault (List Char) :=
  (Utf8.decode bytes).map Text.unifyBreaks

/-- Reads the text at a path. -/
def Folder.readText (f : Folder) (p : Path) : Except FileError (List Char) :=
  match f.find? p with
  | none => .error (.missing p)
  | some (.directory _) => .error (.directory p)
  | some (.file bytes) => (Utf8.decodeText bytes).mapError .undecodable

end Codemod
