import Codemod.Command.Basic
import Codemod.Run.Fixture
import Codemod.Run.Settings

/-!
# Executing a command

A command turns the files below the working directory into files, an output, a log and an exit
code.
-/

namespace Codemod

/-- What a command comes to. -/
structure Execution where
  code : Nat
  output : List Char
  log : List LogLine
  folder : Folder

/-- Why a command is broken off. -/
inductive ExecutionError where
  | file (error : FileError)
  | change (error : ChangeError)
  deriving DecidableEq, Repr

namespace Execution

/-- A command that fails with a message in the log. -/
def refuse (f : Folder) (message : List Char) : Execution := ⟨1, [], [.error message], f⟩

/-- A text filled up with spaces. -/
def padded (width : Nat) (text : List Char) : List Char :=
  text ++ List.replicate (width - text.length) ' '

/-- The names of the recipes with their descriptions. -/
def listing (c : Catalogue) : List Char :=
  c.names.flatMap fun n => padded 40 n ++ ' ' :: c.descriptionOf n ++ ['\n']

/-- What is shown of a run. -/
def runOutput (o : Outcome) : List Char :=
  o.changed.flatMap (fun r => r.diff.getD []) ++ "Done. ".toList ++ o.summary.toList ++ ['\n']

/-- What is shown of a fixture. -/
def fixtureOutput (r : FixtureResult) : List Char :=
  let verdict := if r.passed then "PASS ".toList else "FAIL ".toList
  let detail :=
    match r.error.filter (!·.isEmpty) with
    | some reason => "  ".toList ++ reason ++ ['\n']
    | none => if r.passed then [] else Fixture.diff r
  verdict ++ r.name ++ '\n' :: detail

/-- What is shown of some fixtures. -/
def fixturesOutput (rs : List FixtureResult) : List Char :=
  let passed := (rs.filter (·.passed)).length
  rs.flatMap fixtureOutput ++ s!"{passed}/{rs.length} fixtures passed\n".toList

/-- Applies a recipe to files. -/
def ofRun (r : Recipe) (s : RunSettings) (f : Folder) (paths : List Path) (dry : Bool) :
    Except ExecutionError Execution :=
  match Run.apply r s.search dry f paths with
  | .error e => .error (.change e)
  | .ok o => .ok ⟨if o.isOk then 0 else 1, runOutput o, o.log, o.folder⟩

/-- Tries a recipe on fixtures. -/
def ofTest (r : Recipe) (f : Folder) (fixtures : Path) : Except ExecutionError Execution :=
  if f.isDirectory fixtures then
    match Fixture.run r f fixtures with
    | .error (.file e) => .error (.file e)
    | .error (.change e) => .error (.change e)
    | .ok (rs, log) => .ok ⟨if rs.all (·.passed) then 0 else 1, fixturesOutput rs, log, f⟩
  else .ok (refuse f ("Fixtures directory not found: ".toList ++ fixtures.render))

/-- Executes a command with a catalogue. -/
def ofCommand (c : Catalogue) (s : RunSettings) (f : Folder) :
    Command → Except ExecutionError Execution
  | .list => .ok ⟨0, listing c, [], f⟩
  | .run recipe paths dry =>
    match c.get recipe with
    | .error e => .ok (refuse f e.message)
    | .ok r => ofRun r s f paths dry
  | .test recipe fixtures =>
    match c.get recipe with
    | .error e => .ok (refuse f e.message)
    | .ok r => ofTest r f fixtures

/-- Executes a command. -/
def ofInvocation (f : Folder) (i : Invocation) : Except ExecutionError Execution :=
  match RunSettings.load f i.config with
  | .error (.file e) => .error (.file e)
  | .error (.config e) => .ok (refuse f e.message)
  | .ok s =>
    match Catalogue.make s.overrides with
    | .error e => .ok (refuse f e.message)
    | .ok c => ofCommand c s f i.command

end Execution

end Codemod
