import Codemod.Session

/-!
# Reports

What a recipe has to say about one document: the new text, or that there is nothing to do, or why
it failed, and the notices on the way.
-/

namespace Codemod

/-- The outcome of a recipe on a document. -/
structure Report where
  notices : List Notice
  /-- The new text, or nothing when the recipe found no candidate. -/
  result : Except ChangeError (Option (List Char))

/-- What is done to documents. -/
abbrev Change := Document → Report

/-- Makes a change to a text. -/
def Change.apply (change : Change) (text : List Char) (language : String)
    (filename : Option String) : Report :=
  match Document.parse text language filename false with
  | .error e => ⟨[], .error (.parse e)⟩
  | .ok d => change d

/-- The outcome of a single batch of edits. -/
def Report.ofEdits (d : Document) (edits : List Edit) : Report :=
  ⟨[], (Edit.commit d.text edits).mapError .edit⟩

end Codemod
