import Codemod.Catalogue
import Codemod.Files.Discovery
import Codemod.Settings.Yaml.Compose

/-!
# Settings of a run

Which files a run takes, and settings for the recipes. They are read from a YAML file, and there
are defaults for all of them.
-/

namespace Codemod

/-- The settings of a run. -/
structure RunSettings where
  /-- The suffixes of the files to take. -/
  extensions : List (List Char) :=
    [".js", ".jsx", ".ts", ".tsx", ".mjs", ".cjs"].map String.toList
  /-- The names of the directories to pass over. -/
  excluded : List (List Char) := ["node_modules", ".git", "dist", "build"].map String.toList
  /-- The settings for the recipes. -/
  recipes : List (List Char × Settings) := []

/-- Why there are no settings for a run. -/
inductive LoadError where
  | config (error : ConfigError)
  | file (error : FileError)
  deriving DecidableEq, Repr

namespace RunSettings

/-- What a run searches for. -/
def search (s : RunSettings) : Search := ⟨s.extensions, s.excluded⟩

/-- Settings as a value. -/
def mappingOf (s : Settings) : Value := .mapping (s.map fun e => (.text e.1, e.2))

/-- The settings for the recipes as they are given to a catalogue. -/
def overrides (s : RunSettings) : Settings := s.recipes.map fun r => (r.1, mappingOf r.2)

/-- The settings of a run with some settings. -/
def ofSettings (s : Settings) : Checked RunSettings :=
  let c : RunSettings := {}
  Checked.fine RunSettings.mk
    |>.app (s.field "extensions" Value.asTexts c.extensions)
    |>.app (s.field "exclude_dirs" Value.asTexts c.excluded)
    |>.app (s.field "recipes" Value.asGroups c.recipes)

/-- The settings of a run that a value stands for. No value stands for the defaults. -/
def ofValue (v : Value) : Except ConfigError RunSettings :=
  if v.isVoid then .ok {}
  else
    match v with
    | .mapping es =>
      match Value.textEntries? es with
      | none => .error .notSettings
      | some s => (ofSettings s).mapError .invalid
    | _ => .error .notSettings

/-- The settings of a run that a text stands for. -/
def ofText (cs : List Char) : Except ConfigError RunSettings :=
  match Yaml.read? cs with
  | none => .error .malformed
  | some v => ofValue v

/-- The settings of a run in a file, or the defaults when there is no path. -/
def load (f : Folder) : Option Path → Except LoadError RunSettings
  | none => .ok {}
  | some path =>
    if (f.find? path).isNone then .error (.config (.missingFile path.render))
    else
      match f.readText path with
      | .error e => .error (.file e)
      | .ok cs => (ofText cs).mapError .config

end RunSettings

end Codemod
