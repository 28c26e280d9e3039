import Codemod.Recipe.Inject
import Codemod.Recipe.Rename
import Codemod.Recipe.Unwrap
import Codemod.Settings.Check

/-!
# Settings of the recipes

Each recipe can be written down as settings and read back. To override some settings of a recipe is
to lay them over the written ones and to read the result. Settings that a recipe does not know have
no effect.
-/

namespace Codemod

/-- A list of texts as a value. -/
def Value.ofTexts (ts : List (List Char)) : Value := .list (ts.map .text)

namespace Rename

/-- The settings of a renaming. -/
def settings (c : Rename) : Settings :=
  [("root_name".toList, .text c.rootName), ("property".toList, .text c.property),
    ("method".toList, .text c.method), ("replacement".toList, .text c.replacement),
    ("pass_through".toList, (c.passThrough.map Value.ofTexts).getD .null),
    ("indirection_functions".toList, .ofTexts c.indirections),
    ("strict_indirection".toList, .bool c.strict)]

/-- The renaming with some settings. -/
def ofSettings (s : Settings) : Checked Rename :=
  let c : Rename := {}
  Checked.fine Rename.mk
    |>.app (s.field "root_name" Value.asText c.rootName)
    |>.app (s.field "property" Value.asText c.property)
    |>.app (s.field "method" Value.asText c.method)
    |>.app (s.field "replacement" Value.asText c.replacement)
    |>.app (s.field "pass_through" Value.asOptionalTexts c.passThrough)
    |>.app (s.field "indirection_functions" Value.asTexts c.indirections)
    |>.app (s.field "strict_indirection" Value.asBool c.strict)

end Rename

namespace Unwrap

/-- The settings of the removal of a component. -/
def settings (c : Unwrap) : Settings :=
  [("package".toList, .text c.package), ("component".toList, .text c.component),
    ("factories".toList, .ofTexts c.factories)]

/-- The removal of a component with some settings. -/
def ofSettings (s : Settings) : Checked Unwrap :=
  let c : Unwrap := {}
  Checked.fine Unwrap.mk
    |>.app (s.field "package" Value.asText c.package)
    |>.app (s.field "component" Value.asText c.component)
    |>.app (s.field "factories" Value.asTexts c.factories)

end Unwrap

namespace Inject

/-- The settings of the injection of tags. -/
def settings (c : Inject) : Settings :=
  [("head_module".toList, .text c.headModule), ("head_component".toList, .text c.headComponent),
    ("meta_tag".toList, .text c.metaTag), ("script_tag".toList, .text c.scriptTag),
    ("indent_unit".toList, .text c.indentUnit)]

/-- The injection of tags with some settings. -/
def ofSettings (s : Settings) : Checked Inject :=
  let c : Inject := {}
  Checked.fine Inject.mk
    |>.app (s.field "head_module" Value.asText c.headModule)
    |>.app (s.field "head_component" Value.asText c.headComponent)
    |>.app (s.field "meta_tag" Value.asText c.metaTag)
    |>.app (s.field "script_tag" Value.asText c.scriptTag)
    |>.app (s.field "indent_unit" Value.asText c.indentUnit)

end Inject

end Codemod
