import Codemod.Edit.Reindent
import Codemod.Edit.Removal
import Codemod.Import
import Codemod.Markup
import Codemod.Recipe.Report

/-!
# Removing a wrapper component

A component that is imported from a package is removed and its children are kept. The work is done
in rounds: elements first, until none is left, then calls of element factories, until none is left,
and last the import, unless the component is still in use.
-/

namespace Codemod

/-- Which component is removed. -/
structure Unwrap where
  /-- The package that the component is imported from. -/
  package : List Char := "@shopify/app-bridge-react".toList
  /-- The name of the component in the package. -/
  component : List Char := "Provider".toList
  /-- The functions that create elements. -/
  factories : List (List Char) := ["React.createElement".toList]
  deriving DecidableEq, Repr

namespace Unwrap

/-! ### Elements -/

/-- The edit that leaves nothing of an element, or `null` where an expression is needed. -/
def dropElement (d : Document) (n : Node) : Edit :=
  if Markup.isChild n then n.removal d.text else n.replace "null".toList

/-- Whether a text has only white space. -/
def isBlank (cs : List Char) : Bool := cs.all Text.isSpace

/-- Whether a child of an element counts: comments, blank texts and the tags themselves do not. -/
def isContent (d : Document) (opening closing n : Node) : Bool :=
  !n.sameAs opening && !n.sameAs closing && n.kind ≠ .comment &&
    !(n.kind = .jsxText && isBlank (d.textOf n))

/-- Whether an element has a single element as its content. -/
def isSingle (d : Document) (opening closing n : Node) : Bool :=
  match n.namedChildren.filter (isContent d opening closing) with
  | [c] => Markup.isElement c.kind
  | _ => false

/-- The edits that leave the children of an element. Where an expression is needed, anything but a
single element is kept together by a fragment. -/
def unwrapElement (d : Document) (n : Node) : List Edit :=
  match n.childOfKind? .jsxOpeningElement, n.childOfKind? .jsxClosingElement with
  | some opening, some closing =>
    let body := Text.slice d.text opening.stop closing.start
    let kept := Reindent.reindent body (n.lineIndent d.text)
    if isBlank body then [dropElement d n]
    else if Markup.isChild n then [n.replace kept]
    else if isSingle d opening closing n then [n.replace (Text.trim Text.isSpace kept)]
    else [opening.replace "<>".toList, closing.replace "</>".toList]
  | _, _ => []

/-- The edits for one element. -/
def elementEdits (d : Document) (n : Node) : List Edit :=
  if n.kind = .jsxSelfClosingElement then [dropElement d n] else unwrapElement d n

/-- The elements with one of some tag names. -/
def elements (d : Document) (tags : List (List Char)) : List Node :=
  d.nodes.filter fun n => Markup.isElement n.kind && Markup.isTagged d tags n

/-- The edits of one round on elements. -/
def markupEdits (d : Document) (tags : List (List Char)) : List Edit :=
  (Node.outermost (elements d tags)).flatMap (elementEdits d)

/-! ### Calls of factories -/

/-- The arguments of a call of a factory. -/
def factoryArguments? (c : Unwrap) (d : Document) (n : Node) : Option (List Node) :=
  if n.kind = .callExpression && (n.child? .callee).any (c.factories.contains <| d.textOf ·) then
    (n.child? .arguments).map fun args => args.namedChildren.filter (·.kind ≠ .comment)
  else none

/-- What takes the place of a call that creates the component: its child, or `null` when it has
none. Calls with several children are left alone. -/
def factoryChild? (c : Unwrap) (d : Document) (tags : List (List Char)) (n : Node) :
    Option (List Char) :=
  match c.factoryArguments? d n with
  | some (tag :: rest) =>
    if tags.contains (d.textOf tag) then
      match rest with
      | [] | [_] => some "null".toList
      | [_, child] => some (d.textOf child)
      | _ => none
    else none
  | _ => none

/-- The edits of one round on calls. -/
def factoryEdits (c : Unwrap) (d : Document) (tags : List (List Char)) : List Edit :=
  let calls := d.nodes.filterMap fun n => (c.factoryChild? d tags n).map fun text => (n, text)
  let outer := Node.outermost (calls.map Prod.fst)
  (calls.filter fun call => outer.any call.1.sameAs).map fun call => call.1.replace call.2

/-! ### The import -/

/-- Whether a block of named imports starts on a line of its own. -/
def isMultiline (inner : List Char) : Bool :=
  let rest := Text.trimStart Text.isIndent inner
  ['\n'].isPrefixOf rest || ['\r', '\n'].isPrefixOf rest

/-- The text of a block of named imports with only some of its specifiers, in the layout that the
block has. A block on several lines takes its indentation from the first specifier, so it needs
one. -/
def rebuild? (d : Document) (block : Node) (keep : List Node) : Option (List Char) :=
  let text := d.textOf block
  let inner := (text.drop 1).dropLast
  let specs := keep.map d.textOf
  if isMultiline inner then
    keep.head?.map fun first =>
      let indent := first.lineIndent d.text
      let closing := Text.lineFront text.dropLast
      let closing := if isBlank closing then closing else []
      let trailing := if (Text.trimEnd Text.isSpace inner).getLast? = some ',' then [','] else []
      "\x7b\n".toList ++ (",\n".toList).intercalate (specs.map (indent ++ ·)) ++ trailing ++
        '\n' :: closing ++ ['\x7d']
  else
    let pad := if inner.head? = some ' ' then [' '] else []
    some ('\x7b' :: pad ++ (", ".toList).intercalate specs ++ pad ++ ['\x7d'])

/-- Whether a specifier stays: it imports something else, or its local name is in use. -/
def keeps (c : Unwrap) (d : Document) (inUse : List (List Char)) (specifier : Node) : Bool :=
  Import.exportedName d specifier ≠ c.component || inUse.contains (Import.localName d specifier)

/-- The edit that drops the component from a statement. -/
def statementEdit? (c : Unwrap) (d : Document) (inUse : List (List Char)) (statement : Node) :
    Option Edit :=
  (statement.childOfKind? .importClause).bind fun clause =>
    (clause.childOfKind? .namedImports).bind fun block =>
      let specs := Import.specifiers block
      let keep := specs.filter (c.keeps d inUse)
      if keep.length = specs.length then none
      else if !keep.isEmpty then (rebuild? d block keep).map block.replace
      else
        match (clause.namedChildren.filter (·.kind ≠ .namedImports)).getLast? with
        | none => some (statement.removal d.text)
        | some last => some ⟨last.stop, block.stop, []⟩

/-- The edits that drop the component from the import statements, except for names in use. -/
def importEdits (c : Unwrap) (d : Document) (names : ImportedNames) (inUse : List (List Char)) :
    List Edit :=
  names.statements.filterMap (c.statementEdit? d inUse)

/-- The local names of the component in a document. -/
def names (c : Unwrap) (d : Document) : ImportedNames :=
  ImportedNames.find d c.package c.component

/-- The edits of the round on imports. -/
def importRound (c : Unwrap) (d : Document) : List Edit :=
  c.importEdits d (c.names d) (ImportedNames.inUse d (c.names d).locals)

/-! ### All rounds -/

/-- The round on imports, after the others. -/
def finish (c : Unwrap) (notices : List Notice) (s : Session) : Report :=
  match s.apply (c.importRound s.document) with
  | (_, .error e) => ⟨notices, .error e⟩
  | (s', .ok _) => ⟨notices, .ok s'.result⟩

/-- The rounds on elements and on calls, and the round on imports. -/
def runRounds (c : Unwrap) (tags : List (List Char)) (s : Session) : Report :=
  match s.applyUntilStable fun d => .ok (markupEdits d tags) with
  | (_, .error e) => ⟨[], .error e⟩
  | (s₁, .ok first) =>
    match s₁.applyUntilStable fun d => .ok (c.factoryEdits d tags) with
    | (_, .error e) => ⟨first.notices, .error e⟩
    | (s₂, .ok second) => c.finish (first.notices ++ second.notices) s₂

/-- Removes the component from a document that imports it. -/
def run (c : Unwrap) (d : Document) : Report :=
  let names := c.names d
  if names.isBound then c.runRounds names.qualified (.start d) else ⟨[], .ok none⟩

end Unwrap

end Codemod
