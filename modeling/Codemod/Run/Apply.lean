import Codemod.Diff
import Codemod.Files.Discovery
import Codemod.Recipe.Basic
import Codemod.Run.Log

/-!
# Applying a recipe to files

Each discovered file is read, changed and, unless the run is dry, written back. A file that
cannot be read or parsed is skipped with an error, and the others are not affected by that.
-/

namespace Codemod

/-- Makes a change to a text in the language of a path. -/
def Change.applyToFile (change : Change) (text : List Char) (path : Path) : Report :=
  match path.language? with
  | none => ⟨[], .error (.parse (.unsupportedFile (String.ofList path.suffix)))⟩
  | some language => change.apply text language (some (String.ofList path.render))

/-- Applies a recipe to a text in the language of a path. -/
def Recipe.applyToFile (r : Recipe) (text : List Char) (path : Path) : Report :=
  Change.applyToFile r.task.run text path

/-- What became of a file. -/
structure FileResult where
  path : Path
  changed : Bool
  error : Option (List Char)
  /-- The difference that a dry run would make. -/
  diff : Option (List Char)
  deriving DecidableEq, Repr

/-- The results of a run with its log, and the files after it. -/
structure Outcome where
  results : List FileResult
  log : List LogLine
  folder : Folder

namespace Outcome

/-- The results for the files that changed. -/
def changed (o : Outcome) : List FileResult := o.results.filter (·.changed)

/-- The results for the files that were skipped. -/
def failed (o : Outcome) : List FileResult := o.results.filter (·.error.isSome)

/-- Whether no file was skipped. -/
def isOk (o : Outcome) : Bool := o.failed.isEmpty

/-- The numbers of a run in words. -/
def summary (o : Outcome) : String :=
  s!"{o.results.length} files, {o.changed.length} changed, {o.failed.length} failed"

end Outcome

namespace Run

/-- The words for an error that only concerns one file. Other errors end the run. -/
def skippable? : ChangeError → Option (List Char)
  | .parse e => some e.message.toList
  | .edit (.undecodable fault) => some fault.message.toList
  | _ => none

/-- The outcome of a file that is skipped. -/
def skip (f : Folder) (path : Path) (log : List LogLine) (reason : List Char) : Outcome :=
  ⟨[⟨path, false, some reason, none⟩],
    log ++ [.error ("Skipping ".toList ++ path.render ++ ": ".toList ++ reason)], f⟩

/-- The outcome of a file with a new text. -/
def accept (f : Folder) (path : Path) (dry : Bool) (log : List LogLine)
    (old : List Char) (new : Option (List Char)) : Outcome :=
  match new with
  | none => ⟨[⟨path, false, none, none⟩], log, f⟩
  | some text =>
    if text = old then ⟨[⟨path, false, none, none⟩], log, f⟩
    else if dry then ⟨[⟨path, true, none, some (Diff.render path old text)⟩], log, f⟩
    else ⟨[⟨path, true, none, none⟩], log, f.write path (Utf8.encode text)⟩

/-- Makes a change to one file. -/
def applyTo (change : Change) (dry : Bool) (f : Folder) (path : Path) :
    Except ChangeError Outcome :=
  match f.readText path with
  | .error e => .ok (skip f path [] e.message)
  | .ok old =>
    let report := change.applyToFile old path
    let log := report.notices.map .ofNotice
    match report.result with
    | .ok new => .ok (accept f path dry log old new)
    | .error e =>
      match skippable? e with
      | some reason => .ok (skip f path log reason)
      | none => .error e

/-- The warning about a path where nothing is. -/
def missingLine (path : Path) : LogLine := .warning ("Path not found: ".toList ++ path.render)

/-- Makes a change to one sighting. -/
def visit (change : Change) (dry : Bool) (f : Folder) : Sighting → Except ChangeError Outcome
  | .missing path => .ok ⟨[], [missingLine path], f⟩
  | .file path => applyTo change dry f path

/-- Makes a change to one sighting after the other. -/
def visitAll (change : Change) (dry : Bool) :
    Folder → List Sighting → Except ChangeError Outcome
  | f, [] => .ok ⟨[], [], f⟩
  | f, s :: ss =>
    match visit change dry f s with
    | .error e => .error e
    | .ok first =>
      (visitAll change dry first.folder ss).map fun rest =>
        ⟨first.results ++ rest.results, first.log ++ rest.log, rest.folder⟩

/-- Makes a change to all files that some paths stand for. -/
def perform (change : Change) (search : Search) (dry : Bool) (f : Folder) (paths : List Path) :
    Except ChangeError Outcome :=
  visitAll change dry f (search.discover f paths)

/-- Applies a recipe to all files that some paths stand for. -/
def apply (r : Recipe) (search : Search) (dry : Bool) (f : Folder) (paths : List Path) :
    Except ChangeError Outcome :=
  perform r.task.run search dry f paths

end Run

end Codemod
