import Codemod.Tree.Kind
import Codemod.Text.Basic

/-!
# Trees of a parsed text

A tree covers a span of byte offsets of the text it was read from. Its children stand in the order
of the text, tokens and comments included, so the leaves of a tree are the tokens of its span.
-/

namespace Codemod

/-- A node with its kind, its role for its parent, its span and its children. -/
inductive Tree where
  | node (kind : Kind) (role : Option Role) (start stop : Nat) (children : List Tree)
  deriving Inhabited

namespace Tree

/-- The kind of the node on top. -/
def kind : Tree → Kind
  | node k _ _ _ _ => k

/-- The role of the node on top for its parent. -/
def role : Tree → Option Role
  | node _ r _ _ _ => r

/-- The offset of the first byte. -/
def start : Tree → Nat
  | node _ _ s _ _ => s

/-- The offset behind the last byte. -/
def stop : Tree → Nat
  | node _ _ _ e _ => e

/-- The children in the order of the text. -/
def children : Tree → List Tree
  | node _ _ _ _ cs => cs

/-- A tree with another role for its parent. -/
def withRole (r : Role) : Tree → Tree
  | node k _ s e cs => node k (some r) s e cs

/-- The children that are not literal tokens. -/
def namedChildren (t : Tree) : List Tree :=
  t.children.filter (·.kind.isNamed)

/-- The first child that plays a role. -/
def child? (t : Tree) (r : Role) : Option Tree :=
  t.children.find? (·.role = some r)

/-- The first child of one of some kinds. -/
def childOfKind? (t : Tree) (k : Kind) : Option Tree :=
  t.children.find? (·.kind = k)

/-- The text that a tree covers. -/
def text (t : Tree) (source : List Char) : List Char :=
  Text.slice source t.start t.stop

/-- Whether two nodes of one text stand at the same place and are of one kind. -/
def sameAs (t u : Tree) : Bool :=
  t.start = u.start && t.stop = u.stop && t.kind.name = u.kind.name

/-- Whether a tree lies within the span of another one that is not its own span. -/
def isInside (t u : Tree) : Bool :=
  u.start ≤ t.start && t.stop ≤ u.stop && !(u.start = t.start && u.stop = t.stop)

end Tree

end Codemod
