import Codemod.Recipe.Basic

/-!
# The catalogue of recipes

The built-in recipes with their descriptions, under their names. Settings may be overridden when
the catalogue is made, and recipes may be registered later.
-/

namespace Codemod

/-- Why settings cannot be used. -/
inductive ConfigError where
  /-- There is no file at the path. -/
  | missingFile (path : List Char)
  /-- The file is not well formed. -/
  | malformed
  /-- The file does not hold named settings. -/
  | notSettings
  /-- Some settings are wrong. -/
  | invalid (problems : List Problem)
  /-- There are settings for recipes that do not exist. -/
  | unknownRecipes (names : List (List Char))
  /-- The settings for a recipe are wrong. -/
  | invalidOverrides (recipe : List Char) (problems : List Problem)
  /-- The settings for a recipe are no mapping. -/
  | notOverrides (recipe : List Char)
  deriving DecidableEq, Repr

namespace ConfigError

/-- An error in words. -/
def message : ConfigError → List Char
  | missingFile path => "Config file not found: ".toList ++ path
  | malformed => "Invalid YAML in config file".toList
  | notSettings | invalid _ => "Invalid configuration".toList
  | unknownRecipes names =>
    "Overrides for unknown recipes: ".toList ++ (", ".toList).intercalate names
  | invalidOverrides recipe _ | notOverrides recipe => "Invalid overrides for ".toList ++ recipe

/-- The problems behind an error. -/
def problems : ConfigError → List Problem
  | invalid ps | invalidOverrides _ ps => ps
  | _ => []

end ConfigError

/-- A recipe that is asked for and does not exist, and those that do. -/
structure UnknownRecipe where
  name : List Char
  available : List (List Char)
  deriving DecidableEq, Repr

/-- The error in words. -/
def UnknownRecipe.message (e : UnknownRecipe) : List Char :=
  "Unknown recipe ".toList ++ Text.quoted e.name ++ "; available: ".toList ++
    (", ".toList).intercalate e.available

/-- A recipe under the name it is registered for, with its description. -/
structure Listing where
  name : List Char
  recipe : Recipe
  description : List Char

/-- The recipes in the order of their registration. -/
structure Catalogue where
  listings : List Listing

namespace Catalogue

/-- A recipe that comes with the catalogue. -/
def builtinListing (name : String) (task : Task) (description : String) : Listing :=
  ⟨name.toList, ⟨name.toList, task⟩, description.toList⟩

/-- The recipes that come with the catalogue. -/
def builtin : List Listing :=
  [builtinListing "pos-api-smartgrid-to-action" (.rename {})
      "Rename api.smartGrid.presentModal() to api.action.presentModal()",
    builtinListing "app-bridge-react/remove-provider" (.unwrap {})
      "Remove the App Bridge React Provider wrapper and its import",
    builtinListing "app-bridge-react/inject-next-head" (.inject {})
      "Add the App Bridge meta and script tags to Next.js <Head>"]

/-- The listing under a name. -/
def find? (c : Catalogue) (name : List Char) : Option Listing :=
  c.listings.find? (·.name = name)

/-- Whether there is a recipe under a name. -/
def has (c : Catalogue) (name : List Char) : Bool := (c.find? name).isSome

/-- Puts a recipe under a name, in the place of the one that was there. -/
def register (c : Catalogue) (name : List Char) (recipe : Recipe) (description : List Char) :
    Catalogue :=
  let listing := ⟨name, recipe, description⟩
  if c.has name then
    ⟨c.listings.map fun l => if l.name = name then listing else l⟩
  else ⟨c.listings ++ [listing]⟩

/-- The names in order. -/
def names (c : Catalogue) : List (List Char) := Text.sorted (c.listings.map Listing.name)

/-- The recipe under a name. -/
def get (c : Catalogue) (name : List Char) : Except UnknownRecipe Recipe :=
  match c.find? name with
  | some l => .ok l.recipe
  | none => .error ⟨name, c.names⟩

/-- The description of a recipe, empty when there is none. -/
def descriptionOf (c : Catalogue) (name : List Char) : List Char :=
  ((c.find? name).map Listing.description).getD []

/-- A description of the catalogue for a reader. -/
def describe (c : Catalogue) : List Char :=
  s!"RecipeRegistry({c.listings.length} recipes: ".toList ++ (", ".toList).intercalate c.names ++
    [')']

/-- A listing with the settings that are given for it. -/
def configure (overrides : Settings) (l : Listing) : Except ConfigError Listing :=
  match overrides.get? l.name with
  | none => .ok l
  | some v =>
    match v with
    | .mapping es =>
      match l.recipe.override ((Value.textEntries? es).getD []) with
      | .ok r => .ok { l with recipe := r }
      | .error ps => .error (.invalidOverrides l.name ps)
    | _ => .error (.notOverrides l.name)

/-- Some listings with the settings that are given for them. -/
def configureAll (overrides : Settings) : List Listing → Except ConfigError (List Listing)
  | [] => .ok []
  | l :: ls =>
    match configure overrides l with
    | .error e => .error e
    | .ok l' => (configureAll overrides ls).map (l' :: ·)

/-- The catalogue of the built-in recipes with the settings that are given for them. -/
def make (overrides : Settings) : Except ConfigError Catalogue :=
  let unknown := (overrides.map Prod.fst).filter fun n => !(builtin.any (·.name = n))
  if unknown.isEmpty then (configureAll overrides builtin).map Catalogue.mk
  else .error (.unknownRecipes (Text.sortedSet unknown))

end Catalogue

end Codemod
