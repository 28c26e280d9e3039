import Codemod.Run.Apply

/-!
# Fixtures

A directory of cases for a recipe. A case is a directory with an input and, unless the recipe is
supposed to leave the input alone, the expected result. White space at the end does not count.
-/

namespace Codemod

/-- What became of a case. -/
structure FixtureResult where
  name : List Char
  passed : Bool
  expected : List Char
  actual : List Char
  error : Option (List Char)
  deriving DecidableEq, Repr

/-- Why the cases cannot be tried. -/
inductive FixtureError where
  | file (error : FileError)
  | change (error : ChangeError)
  deriving DecidableEq, Repr

namespace Fixture

/-- The difference between what is expected and what came out. -/
def diff (r : FixtureResult) : List Char := Diff.render (Path.ofText r.name) r.expected r.actual

/-- A text with one line feed in place of the white space at its end. -/
def normalize (text : List Char) : List Char := Text.trimEnd Text.isSpace text ++ ['\n']

/-- The first file of a case that has a given stem and a supported suffix. -/
def caseFile? (case : Path) (entries : List Entry) (stem : List Char) : Option Path :=
  let named := (entries.map Entry.name).filter fun n => (stem ++ ['.']).isPrefixOf n
  ((Text.sorted named).map case.child).find? (·.language?.isSome)

/-- The input of a case, and the expected result. -/
def texts (f : Folder) (input : Path) (expected : Option Path) :
    Except FileError (List Char × List Char) :=
  match f.readText input with
  | .error e => .error e
  | .ok source =>
    match expected with
    | none => .ok (source, source)
    | some path => (f.readText path).map fun text => (source, text)

/-- Judges the outcome of a case. -/
def judge (name expected source : List Char) : Except ChangeError (Option (List Char)) →
    Except ChangeError (FixtureResult × List LogLine)
  | .ok output =>
    let actual := output.getD source
    .ok (⟨name, normalize actual = normalize expected, expected, actual, none⟩, [])
  | .error (.parse e) =>
    let reason := e.message.toList
    .ok (⟨name, false, expected, source, some reason⟩,
      [.error ("Fixture ".toList ++ name ++ " failed to parse: ".toList ++ reason)])
  | .error e => .error e

/-- Tries a recipe on one case. -/
def tryCase (r : Recipe) (f : Folder) (case : Path) (entries : List Entry) :
    Except FixtureError (List FixtureResult × List LogLine) :=
  match caseFile? case entries "input".toList with
  | none => .ok ([], [.warning ("No input file in ".toList ++ case.render)])
  | some input =>
    match texts f input (caseFile? case entries "expected".toList) with
    | .error e => .error (.file e)
    | .ok (source, expected) =>
      let report := r.applyToFile source input
      match judge case.name expected source report.result with
      | .error e => .error (.change e)
      | .ok (result, log) => .ok ([result], report.notices.map .ofNotice ++ log)

/-- Tries a recipe on one case after the other. -/
def tryCases (r : Recipe) (f : Folder) (base : Path) : List (List Char × List Entry) →
    Except FixtureError (List FixtureResult × List LogLine)
  | [] => .ok ([], [])
  | (name, entries) :: cases =>
    match tryCase r f (base.child name) entries with
    | .error e => .error e
    | .ok (results, log) =>
      (tryCases r f base cases).map fun rest => (results ++ rest.1, log ++ rest.2)

/-- The directories among some entries, in the order of their names. -/
def directories (entries : List Entry) : List (List Char × List Entry) :=
  Text.sortBy Prod.fst (entries.filterMap fun e =>
    match e with
    | .directory name inner => some (name, inner)
    | .file .. => none)

/-- Tries a recipe on all cases of a directory. -/
def run (r : Recipe) (f : Folder) (base : Path) :
    Except FixtureError (List FixtureResult × List LogLine) :=
  match f.find? base with
  | none => .error (.file (.missing base))
  | some (.file _) => .error (.file (.notDirectory base))
  | some (.directory entries) => tryCases r f base (directories entries)

end Fixture

end Codemod
