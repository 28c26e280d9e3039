import Codemod.Document
import Codemod.Text.Order
import Codemod.Tree.Rule

/-!
# Imports

What a document imports from one package, and the local names under which one export of that
package can be reached.
-/

namespace Codemod

/-- The forms of an import. -/
inductive ImportForm where
  | byDefault | named | whole | effect
  deriving DecidableEq, Repr

/-- The name of a form. -/
def ImportForm.name : ImportForm → String
  | byDefault => "default"
  | named => "named"
  | whole => "namespace"
  | effect => "side_effect"

/-- One form of import in a statement. -/
structure Import where
  form : ImportForm
  /-- The text of the import for this form. -/
  specifier : List Char
  source : List Char
  statement : Node

/-- The local names of one export of a package. -/
structure ImportedNames where
  /-- The name of the export. -/
  exported : List Char
  /-- Names that denote the export itself. -/
  locals : List (List Char)
  /-- Names that denote the package, of which the export is a member. -/
  namespaces : List (List Char)
  /-- The statements that import the export by name. -/
  statements : List Node

namespace Import

/-- Whether a node is the string that names a module as the source of an import. -/
def isSource (d : Document) (module : List Char) (n : Node) : Bool :=
  n.kind = .stringLiteral && n.role? = some .source &&
    (Rule.modulePattern module).occursIn (d.textOf n)

/-- All import statements. -/
def allStatements (d : Document) : List Node :=
  d.nodes.filter (·.kind = .importStatement)

/-- The statements that import from a package. -/
def statements (d : Document) (package : List Char) : List Node :=
  (allStatements d).filter (·.descendants.any (isSource d package))

/-- Whether a statement imports types only. -/
def isTypeOnly (statement : Node) : Bool :=
  statement.children.any (·.kind = .token "type")

/-- The specifiers of a block of named imports. -/
def specifiers (block : Node) : List Node :=
  block.namedChildren.filter (·.kind = .importSpecifier)

/-- The name of the export that a specifier imports. -/
def exportedName (d : Document) (specifier : Node) : List Char :=
  ((specifier.child? .name).map d.textOf).getD (d.textOf specifier)

/-- The local name that a specifier introduces. -/
def localName (d : Document) (specifier : Node) : List Char :=
  ((specifier.child? .localName).map d.textOf).getD (exportedName d specifier)

/-- The import of one part of an import clause. -/
def ofPart? (d : Document) (package : List Char) (statement part : Node) : Option Import :=
  match part.kind with
  | .identifier => some ⟨.byDefault, d.textOf part, package, statement⟩
  | .namedImports =>
    let shown := (", ".toList).intercalate ((specifiers part).map d.textOf)
    some ⟨.named, "\x7b ".toList ++ shown ++ " \x7d".toList, package, statement⟩
  | .namespaceImport =>
    (part.childOfKind? .identifier).map fun name =>
      ⟨.whole, "* as ".toList ++ d.textOf name, package, statement⟩
  | _ => none

/-- The imports of one statement. -/
def ofStatement (d : Document) (package : List Char) (statement : Node) : List Import :=
  match statement.childOfKind? .importClause with
  | none => [⟨.effect, [], package, statement⟩]
  | some clause => clause.namedChildren.filterMap (ofPart? d package statement)

/-- All imports from a package. -/
def all (d : Document) (package : List Char) : List Import :=
  (statements d package).flatMap (ofStatement d package)

/-- The local names of the default import of a package. -/
def defaultNames (d : Document) (package : List Char) : List (List Char) :=
  (((all d package).filter (·.form = .byDefault)).map specifier).eraseDups

end Import

namespace ImportedNames

/-- The clause of a statement that imports values. -/
def valueClause? (statement : Node) : Option Node :=
  if Import.isTypeOnly statement then none else statement.childOfKind? .importClause

/-- The local names that a statement gives to an export. -/
def localsOf (d : Document) (exported : List Char) (statement : Node) : List (List Char) :=
  match (valueClause? statement).bind (·.childOfKind? .namedImports) with
  | none => []
  | some block =>
    ((Import.specifiers block).filter (Import.exportedName d · = exported)).map (Import.localName d)

/-- The local name that a statement gives to the whole package. -/
def namespaceOf? (d : Document) (statement : Node) : Option (List Char) :=
  (((valueClause? statement).bind (·.childOfKind? .namespaceImport)).bind
    (·.childOfKind? .identifier)).map d.textOf

/-- The local names under which an export of a package can be reached. -/
def find (d : Document) (package exported : List Char) : ImportedNames :=
  let statements := Import.statements d package
  ⟨exported, (statements.flatMap (localsOf d exported)).eraseDups,
    (statements.filterMap (namespaceOf? d)).eraseDups,
    statements.filter fun s => !(localsOf d exported s).isEmpty⟩

/-- Every text that denotes the export. -/
def qualified (names : ImportedNames) : List (List Char) :=
  names.locals ++ names.namespaces.map (· ++ '.' :: names.exported)

/-- Whether the export can be reached at all. -/
def isBound (names : ImportedNames) : Bool :=
  !names.locals.isEmpty || !names.namespaces.isEmpty

/-- Whether a node is a use of a name outside of the import statements. -/
def isUse (n : Node) : Bool :=
  (n.kind = .identifier || n.kind = .shorthandPropertyIdentifier) &&
    !n.ancestors.any (·.kind = .importStatement)

/-- Those of some names that are used outside of the import statements. -/
def inUse (d : Document) (names : List (List Char)) : List (List Char) :=
  (((d.nodes.filter isUse).map d.textOf).filter names.contains).eraseDups

end ImportedNames

end Codemod
