import Codemod.Command.Arguments
import Codemod.Files.Path

/-!
# Commands

The command line lists the recipes, applies a recipe to files, or tries a recipe on fixtures. The
switches for the settings and for more output stand in front of the command.
-/

namespace Codemod

/-- What is to be done. -/
inductive Command where
  | list
  | run (recipe : List Char) (paths : List Path) (dry : Bool)
  | test (recipe : List Char) (fixtures : Path)
  deriving DecidableEq, Repr

/-- A command with what holds for all commands. -/
structure Invocation where
  /-- The file with the settings. -/
  config : Option Path
  verbose : Bool
  command : Command
  deriving DecidableEq, Repr

/-- How a command line is understood. -/
inductive CommandLine where
  | invalid
  | help
  | invocation (i : Invocation)
  deriving DecidableEq, Repr

namespace CommandLine

/-- The switch that asks for help. -/
def helpSwitch : Switch := ⟨["--help".toList, "-h".toList], false⟩

/-- What stands in front of a command. -/
def mainUsage : Usage :=
  ⟨[helpSwitch, ⟨["--config".toList], true⟩, ⟨["--verbose".toList, "-v".toList], false⟩],
    [.everything]⟩

/-- What a listing takes. -/
def listUsage : Usage := ⟨[helpSwitch], []⟩

/-- What a run takes. -/
def runUsage : Usage := ⟨[helpSwitch, ⟨["--dry-run".toList], false⟩], [.one, .several]⟩

/-- What a test takes. -/
def testUsage : Usage := ⟨[helpSwitch], [.one, .one]⟩

/-- The usage of a command. -/
def usageOf? (name : List Char) : Option Usage :=
  if name = "list".toList then some listUsage
  else if name = "run".toList then some runUsage
  else if name = "test".toList then some testUsage
  else none

/-- The command of a name with what has been taken for it. -/
def commandOf? (name : List Char) (t : Taken) : Option Command :=
  match t.places with
  | [] => if name = "list".toList then some .list else none
  | [[recipe], paths] =>
    if name = "run".toList then some (.run recipe (paths.map Path.ofText) (t.has "--dry-run"))
    else
      match paths with
      | [fixtures] =>
        if name = "test".toList then some (.test recipe (Path.ofText fixtures)) else none
      | _ => none
  | _ => none

/-- Understands the arguments behind the name of a command. -/
def parseCommand (front : Taken) (name : List Char) (args : List (List Char)) : CommandLine :=
  match (usageOf? name).bind (·.take? args) with
  | none => .invalid
  | some t =>
    if t.has "--help" then .help
    else if t.extras.isEmpty && front.extras.isEmpty then
      match commandOf? name t with
      | none => .invalid
      | some c => .invocation ⟨(front.value? "--config").map Path.ofText, front.has "--verbose", c⟩
    else .invalid

/-- Understands a command line. -/
def parse (args : List (List Char)) : CommandLine :=
  match mainUsage.take? args with
  | none => .invalid
  | some front =>
    if front.has "--help" then .help
    else
      match front.places with
      | [name :: rest] => parseCommand front name rest
      | _ => .invalid

end CommandLine

end Codemod
