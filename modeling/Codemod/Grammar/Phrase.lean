import Codemod.Grammar.Lexeme

/-!
# Phrases of scripts

The names of the rules of the script grammar, and the small expressions that the rules share:
keywords, signs, names, lists, and the end of a statement.
-/

namespace Codemod.Grammar

/-- The two dialects of scripts: with markup elements, or with casts in angle brackets. -/
inductive Dialect where
  | tsx | typescript
  deriving DecidableEq, Repr, Inhabited

/-- The rules of the script grammar. -/
inductive Phrase where
  | statement | block | declaration
  | expressions | expression | operation (level : Nat) | unary | access | instantiated | primary
  | arguments | object | string | template | parameters | method
  | pattern | bindingTarget
  | element | container
  | classTail
  | typed | unionType | intersectionType | arrayType | primaryType
  | typeArguments | typeParameters | typeMembers
  deriving DecidableEq, Repr

/-- An expression of the script grammar. -/
abbrev Script := Peg Phrase

namespace Script

open Peg

/-- A keyword. -/
def kw (w : String) : Script := .leaf (.token w) (Lexeme.keyword w.toList)

/-- A sign. -/
def sym (w : String) : Script := .leaf (.token w) (Lexeme.sign w.toList [])

/-- An opening brace. -/
def openBrace : Script := sym "\x7b"

/-- A closing brace. -/
def closeBrace : Script := sym "\x7d"

/-- A sign that is not followed by one of some characters. -/
def symBut (w without : String) : Script :=
  .leaf (.token w) (Lexeme.sign w.toList without.toList)

/-- A sign that has to stand right here. -/
def rawSym (w : String) : Script := .rawLeaf (.token w) (Lexeme.sign w.toList [])

/-- The name of a variable that is used. -/
def used : Script := .leaf .identifier Lexeme.variableName

/-- A name that is declared. -/
def declared : Script := .leaf .identifier Lexeme.name

/-- Any word as an identifier. -/
def anyWord : Script := .leaf .identifier Lexeme.word

/-- The name of a type. -/
def typeName : Script := .leaf .typeIdentifier Lexeme.name

/-- The name of a property. -/
def propertyName : Script := .leaf .propertyIdentifier Lexeme.word

/-- The name of a private property. -/
def privateName : Script := .leaf .privatePropertyIdentifier Lexeme.privateName

/-- A label of a statement. -/
def label : Script := .role .label (.leaf .statementIdentifier Lexeme.name)

/-- A number. -/
def number : Script := .leaf .numberLiteral Lexeme.number

/-- No statement can end before the next token, because it stands on the same line or because a
bracket is open. -/
def goesOn : Script := .check fun enclosed rest => enclosed || Lexeme.sameLine rest

/-- What stands in parentheses. -/
def inParens (p : Script) : Script := .seq [sym "(", .within true p, sym ")"]

/-- What stands in square brackets. -/
def inSquare (p : Script) : Script := .seq [sym "[", .within true p, sym "]"]

/-- What stands in braces. -/
def inBraces (p : Script) : Script := .seq [openBrace, .within true p, closeBrace]

/-- What stands in angle brackets. -/
def inAngles (p : Script) : Script := .seq [sym "<", .within true p, sym ">"]

/-- One or more items with commas between them. -/
def listed (p : Script) : Script := .seq [p, .many (.seq [sym ",", p])]

/-- Items with commas between them, with one more comma allowed at the end. -/
def listedLoosely (p : Script) : Script := opt (.seq [listed p, opt (sym ",")])

/-- Items with commas between them, each of which may be left out. -/
def slots (p : Script) : Script := .seq [opt p, .many (.seq [sym ",", opt p])]

/-- The end of a statement that needs no semicolon. Comments before the end of the line belong to
the statement. -/
def lineEnd (afterOperand : Bool) : Script :=
  .seq [.many (.seq [.skip Lexeme.inlineBlanks, .rawLeaf .comment commentLength]),
    .check fun enclosed rest => !enclosed && Lexeme.endsStatement afterOperand rest]

/-- The end of a statement, with or without a semicolon. -/
def ending (afterOperand : Bool) : Script := .alt [lineEnd afterOperand, sym ";"]

/-- A value after an equals sign. -/
def initializer : Script :=
  .seq [symBut "=" "=>", .role .value (.rule .expression)]

/-- A type after a colon. -/
def ascription : Script := .node .typeAscription (.seq [sym ":", .rule .typed])

/-- The source of an import or export. -/
def fromSource : Script := .seq [kw "from", .role .source (.rule .string)]

/-- A key of an object or a member of a class. -/
def key : Script :=
  .alt [propertyName, privateName, .rule .string, number,
    .node .computedPropertyName (inSquare (.rule .expression))]

/-- The parameters of a function with its type parameters and its result type. -/
def signature : Script :=
  .seq [opt (.role .typeParameters (.rule .typeParameters)),
    .role .parameters (.rule .parameters),
    opt (.role .returnType ascription)]

/-- The body of a function. -/
def body : Script := .role .body (.rule .block)

/-- A keyword that says who may use a member. -/
def access : Script :=
  .node .accessibilityModifier (.alt [kw "public", kw "private", kw "protected"])

end Script

end Codemod.Grammar
