import Codemod.Text.Line
import Codemod.Text.Quoted
import Codemod.Tree.Basic

/-!
# Nodes in their places

A node is a tree together with the trees around it, the innermost first. The nodes of a tree are
listed in document order: a tree comes before its children, and the nodes below a child come before
the next child.
-/

namespace Codemod

/-- A tree in its place. -/
structure Node where
  tree : Tree
  above : List Tree
  deriving Inhabited

namespace Node

/-- The node of a whole tree. -/
def root (t : Tree) : Node := ⟨t, []⟩

/-- The kind of the tree. -/
def kind (n : Node) : Kind := n.tree.kind

/-- The offset of the first byte. -/
def start (n : Node) : Nat := n.tree.start

/-- The offset behind the last byte. -/
def stop (n : Node) : Nat := n.tree.stop

/-- The node around a node. -/
def parent? (n : Node) : Option Node :=
  match n.above with
  | [] => none
  | t :: ts => some ⟨t, ts⟩

/-- A tree below a node, in its place. -/
def below (n : Node) (t : Tree) : Node := ⟨t, n.tree :: n.above⟩

/-- The children in the order of the text. -/
def children (n : Node) : List Node := n.tree.children.map n.below

/-- The children that are not literal tokens. -/
def namedChildren (n : Node) : List Node := n.tree.namedChildren.map n.below

/-- The first child that plays a role. -/
def child? (n : Node) (r : Role) : Option Node := (n.tree.child? r).map n.below

/-- The first child of a kind. -/
def childOfKind? (n : Node) (k : Kind) : Option Node := (n.tree.childOfKind? k).map n.below

/-- The nodes of a path of trees, the innermost first. -/
def ofPath : List Tree → List Node
  | [] => []
  | t :: ts => ⟨t, ts⟩ :: ofPath ts

/-- The nodes around a node, the innermost first. -/
def ancestors (n : Node) : List Node := ofPath n.above

mutual

/-- A tree in its place and all nodes below it, in document order. -/
def inOrder (above : List Tree) : Tree → List Node
  | .node k r s e cs => ⟨.node k r s e cs, above⟩ :: allInOrder (.node k r s e cs :: above) cs

/-- Some trees in their places and all nodes below them, in document order. -/
def allInOrder (above : List Tree) : List Tree → List Node
  | [] => []
  | t :: ts => inOrder above t ++ allInOrder above ts

end

/-- A node and the nodes below it, in document order. -/
def preorder (n : Node) : List Node := inOrder n.above n.tree

/-- The nodes below a node, in document order. -/
def descendants (n : Node) : List Node := allInOrder (n.tree :: n.above) n.tree.children

/-- Whether two nodes of one text stand at the same place and are of one kind. -/
def sameAs (n m : Node) : Bool := n.tree.sameAs m.tree

/-- Whether a node lies within the span of another one that is not its own span. -/
def isInside (n m : Node) : Bool := n.tree.isInside m.tree

/-- The role that the first child of the parent at this place plays. -/
def role? (n : Node) : Option Role :=
  match n.above with
  | [] => none
  | t :: _ => (t.children.find? n.tree.sameAs).bind Tree.role

/-! ### The text of a node -/

/-- The text that a node covers. -/
def text (n : Node) (source : List Char) : List Char := n.tree.text source

/-- The text before a node. -/
def textBefore (n : Node) (source : List Char) : List Char := Text.takeBytes source n.start

/-- The text behind a node. -/
def textBehind (n : Node) (source : List Char) : List Char := Text.dropBytes source n.stop

/-- The number of the line on which a node starts, counted from one. -/
def line (n : Node) (source : List Char) : Nat := Text.lineNumber (n.textBefore source)

/-- The spaces and tabs at the front of the line on which a node starts. -/
def lineIndent (n : Node) (source : List Char) : List Char :=
  (Text.lineFront (n.textBefore source)).takeWhile Text.isIndent

/-- Whether only white space precedes a node on its line. -/
def startsLine (n : Node) (source : List Char) : Bool :=
  (Text.lineFront (n.textBefore source)).all Text.isAsciiSpace

/-- A short description of a node for a reader: its kind, its span and the beginning of its
text. -/
def describe (n : Node) (source : List Char) : List Char :=
  let text := n.text source
  let shown := if 40 < text.length then text.take 37 ++ "...".toList else text
  s!"SgNode({n.kind.name} ({n.start}, {n.stop}) ".toList ++ Text.quoted shown ++ ")".toList

end Node

end Codemod
