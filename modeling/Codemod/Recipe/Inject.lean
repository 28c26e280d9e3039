import Codemod.Import
import Codemod.Markup
import Codemod.Recipe.Marker
import Codemod.Recipe.Report

/-!
# Injecting tags into the head of a page

Each head element gets the tags that it lacks, and the head component is imported when it was not.
A document that imports the head component without using it gets a head element with all tags as
the first child of the first element that it returns.
-/

namespace Codemod

/-- Which tags are injected, and where the head component comes from. -/
structure Inject where
  /-- The module of the head component. -/
  headModule : List Char := "next/head".toList
  /-- The name of the head component when it is not imported under another one. -/
  headComponent : List Char := "Head".toList
  metaTag : List Char :=
    "<meta name=\"shopify-api-key\" content=\"%SHOPIFY_API_KEY%\" />".toList
  scriptTag : List Char :=
    "<script src=\"https://cdn.shopify.com/shopifycloud/app-bridge.js\"></script>".toList
  /-- The indentation of a child. -/
  indentUnit : List Char := "  ".toList
  deriving DecidableEq, Repr

namespace Inject

/-- The tags in order. -/
def tags (c : Inject) : List (List Char) := [c.metaTag, c.scriptTag]

/-- The head elements with one of some names. -/
def heads (d : Document) (names : List (List Char)) : List Node :=
  d.nodes.filter fun n => n.kind = .jsxElement && Markup.isTagged d names n

/-- The tags that are not recognised in a text. -/
def missing (c : Inject) (text : List Char) : List (List Char) :=
  c.tags.filter fun tag => !(Marker.ofTag tag).occursIn text

/-- The insertion of the missing tags behind the opening tag of a head element. -/
def headEdit? (c : Inject) (d : Document) (head : Node) : Option Edit :=
  let missing := c.missing (d.textOf head)
  if missing.isEmpty then none
  else
    (head.childOfKind? .jsxOpeningElement).map fun opening =>
      let indent := head.lineIndent d.text ++ c.indentUnit
      opening.insertAfter (missing.flatMap fun tag => '\n' :: indent ++ tag)

/-! ### The import of the head component -/

/-- Whether a statement is a directive: a string and nothing else. -/
def isDirective (n : Node) : Bool :=
  n.kind = .expressionStatement &&
    match n.namedChildren with
    | [inner] => inner.kind = .stringLiteral
    | _ => false

/-- The offset behind the line on which a node ends. -/
def lineAfter (d : Document) (n : Node) : Nat :=
  let behind := n.textBehind d.text
  let back := Text.byteLength (Text.lineBack behind)
  if behind.contains '\n' then n.stop + back + 1 else n.stop + back

/-- The offset behind the lines of the directives that some statements start with. Comments between
them do not count. -/
def prologueEnd (d : Document) : (position : Nat) → List Node → Nat
  | position, [] => position
  | position, n :: ns =>
    if n.kind = .comment then prologueEnd d position ns
    else if isDirective n then prologueEnd d (lineAfter d n) ns
    else position

/-- The insertion of the import behind the directives. -/
def importEdit (c : Inject) (d : Document) : Edit :=
  let position := prologueEnd d 0 d.root.namedChildren
  let statement := "import ".toList ++ c.headComponent ++ " from \"".toList ++ c.headModule ++
    "\";\n".toList
  let onNewLine := position = Text.byteLength d.text && d.text.getLast? ≠ some '\n'
  ⟨position, position, if onNewLine then '\n' :: statement else statement⟩

/-! ### A new head element -/

/-- The expression inside of parentheses. -/
def unparenthesized : (limit : Nat) → Node → Node
  | 0, n => n
  | limit + 1, n =>
    match n.namedChildren with
    | inner :: _ => if n.kind = .parenthesizedExpression then unparenthesized limit inner else n
    | [] => n

/-- The element that a statement returns. -/
def returned? (n : Node) : Option Node :=
  if n.kind = .returnStatement then
    (n.namedChildren.head?.map fun value => unparenthesized (value.stop - value.start) value).filter
      (·.kind = .jsxElement)
  else none

/-- The pattern of an opening tag with a name. -/
def tagPattern (name : List Char) : Pattern :=
  .cat (.literal ('<' :: name)) (.one fun c => Text.isSpace c || c = '>' || c = '/')

/-- The text of a new head element as a child of an element. -/
def block (c : Inject) (d : Document) (name : List Char) (n : Node) : List Char :=
  let indent := n.lineIndent d.text ++ c.indentUnit
  let lines := ['<' :: name ++ ['>']] ++ c.tags.map (c.indentUnit ++ ·) ++
    ["</".toList ++ name ++ ['>']]
  lines.flatMap fun line => '\n' :: indent ++ line

/-- The insertion of a new head element into an element that does not have one. -/
def blockInto? (c : Inject) (d : Document) (name : List Char) (n : Node) : Option Edit :=
  if (tagPattern name).occursIn (d.textOf n) then none
  else (n.childOfKind? .jsxOpeningElement).map (·.insertAfter (c.block d name n))

/-- The insertion of a new head element into the first returned element that can take it. -/
def blockEdit? (c : Inject) (d : Document) (name : List Char) : Option Edit :=
  d.nodes.findSome? fun n => (returned? n).bind (c.blockInto? d name)

/-! ### The whole recipe -/

/-- The names that the default export of the head module has. -/
def importedHeads (c : Inject) (d : Document) : List (List Char) :=
  Import.defaultNames d c.headModule

/-- The name for a new head element: the first of the imported names that are not the usual one, if
there is such a name. -/
def headName (c : Inject) (d : Document) : List Char :=
  ((Text.sorted ((c.importedHeads d).filter (· ≠ c.headComponent))).head?).getD c.headComponent

/-- Whether a document imports the head module. -/
def imports (c : Inject) (d : Document) : Bool := !(Import.statements d c.headModule).isEmpty

/-- All edits. -/
def edits (c : Inject) (d : Document) : List Edit :=
  let found := heads d (c.headComponent :: c.importedHeads d)
  if found.isEmpty then
    if c.imports d then (c.blockEdit? d (c.headName d)).toList else []
  else
    let inserted := found.filterMap (c.headEdit? d)
    if inserted.isEmpty || c.imports d then inserted else inserted ++ [c.importEdit d]

/-- Injects the tags into a document. -/
def run (c : Inject) (d : Document) : Report := .ofEdits d (c.edits d)

end Inject

end Codemod
