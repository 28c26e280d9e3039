import Codemod.Document

/-!
# Elements

Markup elements inside of a script: their tag names, and whether they stand among the children of
another element.
-/

namespace Codemod.Markup

/-- Kinds of elements: with a closing tag, or without one. -/
def isElement (k : Kind) : Bool := k = .jsxElement || k = .jsxSelfClosingElement

/-- The node of the tag name of an element. A fragment has none. -/
def tagNode? (n : Node) : Option Node :=
  match n.kind with
  | .jsxElement => (n.childOfKind? .jsxOpeningElement).bind (·.child? .name)
  | .jsxSelfClosingElement => n.child? .name
  | _ => none

/-- The tag name of an element. -/
def tagName? (d : Document) (n : Node) : Option (List Char) := (tagNode? n).map d.textOf

/-- Whether a node is a child of an element or a fragment. -/
def isChild (n : Node) : Bool := n.parent?.any (·.kind = .jsxElement)

/-- Whether an element has one of some tag names. -/
def isTagged (d : Document) (tags : List (List Char)) (n : Node) : Bool :=
  (tagName? d n).any tags.contains

end Codemod.Markup
