import Codemod.Recipe.Settings

/-!
# Recipes

A recipe is a task with its settings under a name.
-/

namespace Codemod

/-- What a recipe does. -/
inductive Task where
  | rename (config : Rename)
  | unwrap (config : Unwrap)
  | inject (config : Inject)
  deriving DecidableEq, Repr

namespace Task

/-- The name of the sort of task. -/
def title : Task → String
  | rename _ => "RenameCallProperty"
  | unwrap _ => "UnwrapComponent"
  | inject _ => "InjectHeadTags"

/-- The settings of a task. -/
def settings : Task → Settings
  | rename c => c.settings
  | unwrap c => c.settings
  | inject c => c.settings

/-- A task with other settings laid over its own. -/
def override (top : Settings) : Task → Checked Task
  | rename c => (Rename.ofSettings (c.settings.update top)).map rename
  | unwrap c => (Unwrap.ofSettings (c.settings.update top)).map unwrap
  | inject c => (Inject.ofSettings (c.settings.update top)).map inject

/-- Does the task on a document. -/
def run : Task → Document → Report
  | rename c, d => c.run d
  | unwrap c, d => c.run d
  | inject c, d => c.run d

end Task

/-- A task under a name. -/
structure Recipe where
  name : List Char
  task : Task
  deriving DecidableEq, Repr

namespace Recipe

/-- A description of a recipe for a reader. -/
def describe (r : Recipe) : List Char :=
  r.task.title.toList ++ '(' :: Text.quoted r.name ++ [')']

/-- A recipe with other settings laid over its own. -/
def override (r : Recipe) (top : Settings) : Checked Recipe :=
  (r.task.override top).map fun t => { r with task := t }

/-- Applies a recipe to a text. -/
def apply (r : Recipe) (text : List Char) (language : String) (filename : Option String) :
    Report :=
  Change.apply r.task.run text language filename

end Recipe

end Codemod
