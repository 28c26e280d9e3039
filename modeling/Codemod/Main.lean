import Codemod.Command.Execute

/-!
# The command line

Reads the files below the working directory, executes the command, and writes the files that the
command has changed.
-/

namespace Codemod

/-- The entry of a directory with all that is below it. What cannot be read is left out. -/
partial def readEntry (e : IO.FS.DirEntry) : IO (List Entry) :=
  try
    if ← e.path.isDir then
      let below ← (← e.path.readDir).toList.mapM readEntry
      return [.directory e.fileName.toList below.flatten]
    else
      return [.file e.fileName.toList (← IO.FS.readBinFile e.path).toList]
  catch _ => return []

/-- The working directory. -/
def readWorkingDirectory : IO Folder := do
  let entries ← (← (← IO.currentDir).readDir).toList.mapM readEntry
  return ⟨entries.flatten⟩

/-- Writes a file below the working directory. -/
def writeFile (file : List (List Char) × List UInt8) : IO Unit :=
  IO.FS.writeBinFile ("/".intercalate (file.1.map String.ofList)) ⟨file.2.toArray⟩

/-- How the command line is used. -/
def usage : String :=
  "usage: codemod [-h] [--config CONFIG] [--verbose] COMMAND\n\n" ++
  "commands:\n" ++
  "  list                             list the recipes\n" ++
  "  run [--dry-run] RECIPE PATH ...  apply a recipe to files and directories\n" ++
  "  test RECIPE FIXTURES             try a recipe on the cases of a directory\n"

/-- Executes an invocation and gives its exit code. -/
def execute (i : Invocation) : IO UInt32 := do
  let before ← readWorkingDirectory
  match Execution.ofInvocation before i with
  | .error (.file e) =>
    IO.eprintln (String.ofList e.message)
    return 1
  | .error (.change e) =>
    IO.eprintln e.message
    return 1
  | .ok e =>
    e.log.forM fun line => IO.eprintln (String.ofList line.render)
    (e.folder.newerThan before).forM writeFile
    IO.print (String.ofList e.output)
    return e.code.toUInt32

end Codemod

/-- The command line. -/
def main (args : List String) : IO UInt32 :=
  match Codemod.CommandLine.parse (args.map String.toList) with
  | .invalid => do
    IO.eprint Codemod.usage
    return 2
  | .help => do
    IO.print Codemod.usage
    return 0
  | .invocation i => Codemod.execute i
