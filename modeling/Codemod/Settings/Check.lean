import Codemod.Settings.Value

/-!
# Checked settings

Settings are read field by field. A value of the wrong sort is a problem at a place: the name of
the field, then the index in a list or the key in a mapping. All problems are reported, in the
order of the fields.
-/

namespace Codemod

/-- One step on the way to a value. -/
inductive Step where
  | name (text : List Char)
  | number (n : Int)
  deriving DecidableEq, Repr

/-- What is wrong with a value. -/
inductive Flaw where
  | notText | notList | notMapping | notBool | unreadableBool
  deriving DecidableEq, Repr

/-- The short name of a flaw. -/
def Flaw.code : Flaw → String
  | notText => "string_type"
  | notList => "list_type"
  | notMapping => "dict_type"
  | notBool => "bool_type"
  | unreadableBool => "bool_parsing"

/-- A flaw at a place. -/
structure Problem where
  place : List Step
  flaw : Flaw
  deriving DecidableEq, Repr

namespace Problem

/-- A flaw of the value itself. -/
def here (flaw : Flaw) : Problem := ⟨[], flaw⟩

/-- A problem of a value inside of another one. -/
def under (step : Step) (p : Problem) : Problem := ⟨step :: p.place, p.flaw⟩

end Problem

/-- A value, or what is wrong with it. -/
abbrev Checked (α : Type) := Except (List Problem) α

namespace Checked

/-- A value without problems. -/
def fine {α : Type} (a : α) : Checked α := .ok a

/-- What is wrong. -/
def problems {α : Type} : Checked α → List Problem
  | .ok _ => []
  | .error ps => ps

/-- Moves the problems of a value inside of another one. -/
def under {α : Type} (step : Step) (c : Checked α) : Checked α :=
  c.mapError (·.map (Problem.under step))

/-- A function on two values, with the problems of both. -/
def map₂ {α β γ : Type} (f : α → β → γ) : Checked α → Checked β → Checked γ
  | .ok a, .ok b => .ok (f a b)
  | c, d => .error (c.problems ++ d.problems)

/-- Applies a function, with the problems of both sides. -/
def app {α β : Type} (f : Checked (α → β)) (a : Checked α) : Checked β :=
  map₂ (fun g x => g x) f a

end Checked

namespace Value

/-- The step to the value of a key. -/
def step : Value → Step
  | text t => .name t
  | null => .name "None".toList
  | bool b => .number (if b then 1 else 0)
  | int n => .number n
  | decimal d => .name d.render
  | _ => .name []

/-- A text. -/
def asText : Value → Checked (List Char)
  | text t => .ok t
  | _ => .error [.here .notText]

/-- The texts of a list, from an index on. -/
def textsFrom : (index : Nat) → List Value → Checked (List (List Char))
  | _, [] => .ok []
  | index, v :: vs =>
    Checked.map₂ List.cons (v.asText.under (.number index)) (textsFrom (index + 1) vs)

/-- A list of texts. -/
def asTexts : Value → Checked (List (List Char))
  | list vs => textsFrom 0 vs
  | _ => .error [.here .notList]

/-- A list of texts, or nothing. -/
def asOptionalTexts : Value → Checked (Option (List (List Char)))
  | null => .ok none
  | v => v.asTexts.map some

/-- The words for yes and no. -/
def boolWords : List (String × Bool) :=
  [("0", false), ("1", true), ("f", false), ("t", true), ("false", false), ("true", true),
    ("n", false), ("y", true), ("no", false), ("yes", true), ("off", false), ("on", true)]

/-- The answer that an integer stands for. -/
def boolOfInt (n : Int) : Checked Bool :=
  if n = 0 then .ok false else if n = 1 then .ok true else .error [.here .unreadableBool]

/-- Yes or no, in any of its spellings. -/
def asBool : Value → Checked Bool
  | bool b => .ok b
  | int n => boolOfInt n
  | decimal d =>
    match d.toInt? with
    | some n => boolOfInt n
    | none => .error [.here .notBool]
  | text t =>
    match boolWords.find? fun w => w.1.toList = t.map Char.toLower with
    | some (_, b) => .ok b
    | none => .error [.here .unreadableBool]
  | _ => .error [.here .notBool]

/-- The settings of the entries of a mapping. -/
def settingsOf : List (Value × Value) → Checked Settings
  | [] => .ok []
  | (k, v) :: rest =>
    let key := (k.asText.under (.name "[key]".toList)).under k.step
    Checked.map₂ List.cons (key.map fun t => (t, v)) (settingsOf rest)

/-- A mapping with texts as its keys. -/
def asSettings : Value → Checked Settings
  | mapping es => settingsOf es
  | _ => .error [.here .notMapping]

/-- The settings of each entry of a mapping. -/
def groupsOf : List (Value × Value) → Checked (List (List Char × Settings))
  | [] => .ok []
  | (k, v) :: rest =>
    let key := (k.asText.under (.name "[key]".toList)).under k.step
    let group := v.asSettings.under k.step
    Checked.map₂ List.cons (Checked.map₂ Prod.mk key group) (groupsOf rest)

/-- A mapping of mappings with texts as their keys. -/
def asGroups : Value → Checked (List (List Char × Settings))
  | mapping es => groupsOf es
  | _ => .error [.here .notMapping]

end Value

/-- The value of a field, or its default when it is not given. -/
def Settings.field {α : Type} (s : Settings) (name : String) (read : Value → Checked α)
    (default : α) : Checked α :=
  match s.get? name.toList with
  | none => .ok default
  | some v => (read v).under (.name name.toList)

end Codemod
