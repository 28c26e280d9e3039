import Codemod.Grammar.Phrase

/-!
# Statements and declarations

The rules for statements, for imports and exports, and for classes, interfaces and the other
declarations.
-/

namespace Codemod.Grammar.Script

open Peg

/-! ### Imports and the names of exports -/

/-- A name taken from or given to another module. -/
def exported : Script := .alt [anyWord, .rule .string]

/-- A specifier of an import or export: a name, and perhaps another name for it. -/
def specifier (kind : Kind) : Script :=
  let renamed : Script :=
    .seq [.role .name exported, opt (.seq [kw "as", .role .localName exported])]
  let closed : Script := ahead (.alt [sym ",", closeBrace])
  .alt [.node kind (.seq [kw "type", renamed, closed]), .node kind (.seq [renamed, closed])]

/-- The names in braces that an import takes from a module. -/
def importNames : Script := inBraces (listedLoosely (specifier .importSpecifier))

/-- What an import binds besides a default: the module as a whole, or names in braces. -/
def importTargets : List Script :=
  [.node .namespaceImport (.seq [sym "*", kw "as", declared]), .node .namedImports importNames]

/-- What an import binds. -/
def importBindings : Script :=
  .alt (importTargets ++ [.seq [declared, opt (.seq [sym ",", .alt importTargets])]])

/-- The part of an import that binds names. -/
def importClause : Script := .node .importClause importBindings

/-- The source of an import. -/
def importSource : Script := .role .source (.rule .string)

/-- What is imported, and from where. -/
def importTaken : Script :=
  .alt
    [.seq [importClause, fromSource],
    .node .importRequireClause
      (.seq [declared, sym "=", kw "require", sym "(", importSource, sym ")"]),
    importSource]

/-- What is said about an import behind its source. -/
def importAttributes : Script :=
  opt (.node .importAttribute (.seq [.alt [kw "with", kw "assert"], .rule .object]))

/-- What an import statement consists of. -/
def importParts : Script :=
  .seq [kw "import", .alt [.seq [kw "type", importTaken], importTaken], importAttributes,
    ending false]

/-- An import statement. -/
def importStatement : Script := .node .importStatement importParts

/-- The names that an export gives. -/
def exportClause : Script :=
  .node .exportClause (inBraces (listedLoosely (specifier .exportSpecifier)))

/-! ### Declarations -/

/-- A declared name or pattern with its type and its value. -/
def declarator : Script :=
  .node .variableDeclarator
    (.seq [.role .name (.rule .bindingTarget), opt (.role .ascription ascription),
      opt initializer])

/-- A declaration of constants or variables, up to its end. -/
def bindings : Script :=
  .alt
    [.node .lexicalDeclaration
      (.seq [.role .keyword (.alt [kw "const", kw "let"]), listed declarator, ending true]),
    .node .variableDeclaration (.seq [kw "var", listed declarator, ending true])]

/-- A function declaration. -/
def functionDeclaration (gap : Script) : Script :=
  let async : Script := opt (.seq [kw "async", gap])
  .alt
    [.node .generatorFunctionDeclaration
      (.seq [async, kw "function", sym "*", .role .name declared, signature, body,
        opt (lineEnd false)]),
    .node .functionDeclaration
      (.seq [async, kw "function", .role .name declared, signature, body, opt (lineEnd false)])]

/-- The rest of a class after its name. -/
def classTail : Script :=
  let implemented : Script :=
    .node .implementsClause (.seq [kw "implements", listed (.rule .typed)])
  let extended : Script :=
    .node .extendsClause
      (.seq [kw "extends", .role .value (.rule .access),
        opt (.role .typeArguments (.rule .typeArguments))])
  let modifier (w : String) : Script := opt (.seq [kw w, ahead (.alt [key, sym "*"])])
  let field (back : Script) : Script :=
    .node .publicFieldDefinition
      (.seq [opt (.seq [access, ahead key]), modifier "static", modifier "readonly",
        .role .name key, opt (.alt [sym "?", symBut "!" "="]),
        opt (.role .ascription ascription), back])
  .seq [opt (.role .typeParameters (.rule .typeParameters)),
    opt (.node .classHeritage (.alt [.seq [extended, opt implemented], implemented])),
    .role .body (.node .classBody
      (.seq [openBrace,
        .within false (.many (.alt
          [.seq [.rule .method, opt (ending false)],
          .seq [field initializer, .alt [ending true, sym ","]],
          .seq [field (.seq []), .alt [ending false, sym ","]],
          sym ";"])),
        closeBrace]))]

/-- A class declaration. -/
def classDeclaration : Script :=
  .alt
    [.node .classDeclaration
      (.seq [kw "class", .role .name typeName, .rule .classTail, opt (lineEnd false)]),
    .node .abstractClassDeclaration
      (.seq [kw "abstract", kw "class", .role .name typeName, .rule .classTail])]

/-- A declaration of a type, an interface or an enumeration. -/
def typeDeclaration (gap : Script) : Script :=
  let parameters : Script := opt (.role .typeParameters (.rule .typeParameters))
  .alt
    [.node .typeAliasDeclaration
      (.seq [kw "type", gap, .role .name typeName, parameters, sym "=",
        .role .value (.rule .typed), ending false]),
    .node .interfaceDeclaration
      (.seq [kw "interface", .role .name typeName, parameters,
        opt (.node .extendsTypeClause
          (.seq [kw "extends", listed (.role .ascription (.rule .primaryType))])),
        .role .body (.node .interfaceBody (.rule .typeMembers))]),
    .node .enumDeclaration
      (.seq [opt (kw "const"), kw "enum", .role .name declared,
        .role .body (.node .enumBody
          (inBraces (listedLoosely (.alt
            [.node .enumAssignment (.seq [.role .name key, initializer]), .role .name key]))))])]

/-- A declaration of something that exists elsewhere. -/
def ambientDeclaration (gap : Script) : Script :=
  .node .ambientDeclaration (.seq [kw "declare", gap, .rule .declaration])

/-- A declaration. The gap is what holds behind a word that could be a statement of its own. -/
def declaration (gap : Script) : Script :=
  .alt [functionDeclaration gap, classDeclaration, bindings, typeDeclaration gap,
    ambientDeclaration gap]

/-! ### Exports -/

/-- An export statement. -/
def exportStatement : Script :=
  let named : Script := .seq [exportClause, opt fromSource, ending false]
  .node .exportStatement
    (.seq [kw "export",
      .alt
        [.seq [.node .namespaceExport (.seq [sym "*", kw "as", exported]), fromSource,
          ending false],
        .seq [sym "*", fromSource, ending false],
        .seq [kw "type", named],
        named,
        .seq [kw "default",
          .alt [.role .declaration (.rule .declaration),
            .seq [.role .value (.rule .expression), ending true]]],
        .role .declaration (declaration (.seq []))]])

/-! ### Statements -/

/-- A condition in parentheses. -/
def condition : Script :=
  .role .condition (.node .parenthesizedExpression (inParens (.rule .expressions)))

/-- A statement as the body of another one. -/
def substatement : Script := .role .body (.rule .statement)

/-- A loop with a counter. -/
def forStatement : Script :=
  let empty : Script := .node .emptyStatement (sym ";")
  .node .forStatement
    (.seq [kw "for", sym "(",
      .alt [.role .initializer empty, .role .initializer bindings,
        .seq [.role .initializer (.within true (.rule .expressions)), sym ";"]],
      .role .condition (.alt [empty, .seq [.within true (.rule .expressions), sym ";"]]),
      opt (.role .increment (.within true (.rule .expressions))),
      sym ")", substatement])

/-- A loop over keys or values. -/
def forInStatement : Script :=
  .node .forInStatement
    (.seq [kw "for", opt (kw "await"),
      inParens (.seq
        [.alt
          [.seq [.role .keyword (.alt [kw "const", kw "let", kw "var"]),
            .role .left (.rule .bindingTarget)],
          .role .left (.alt [.seq [.rule .bindingTarget, ahead (.alt [kw "in", kw "of"])],
            .rule .access])],
        .role .operator (.alt [kw "in", kw "of"]),
        .role .right (.rule .expressions)]),
      substatement])

/-- A choice among cases. -/
def switchStatement : Script :=
  let statements : Script := .many (.role .body (.rule .statement))
  .node .switchStatement
    (.seq [kw "switch",
      .role .value (.node .parenthesizedExpression (inParens (.rule .expressions))),
      .role .body (.node .switchBody
        (.seq [openBrace,
          .many (.alt
            [.node .switchCase
              (.seq [kw "case", .role .value (.within true (.rule .expressions)), sym ":",
                statements]),
            .node .switchDefault (.seq [kw "default", sym ":", statements])]),
          closeBrace]))])

/-- A statement that watches for exceptions. -/
def tryStatement : Script :=
  .node .tryStatement
    (.seq [kw "try", body,
      opt (.role .handler (.node .catchClause
        (.seq [kw "catch",
          opt (inParens (.role .parameter (.rule .bindingTarget))), body]))),
      opt (.role .finalizer (.node .finallyClause (.seq [kw "finally", body])))])

/-- A jump to the end of a loop, or to its next round. -/
def jump (kind : Kind) (w : String) : Script :=
  .node kind (.seq [kw w, .alt [ending false, .seq [label, ending false]]])

/-- Any statement. -/
def statement : Script :=
  .alt
    [.rule .block,
    importStatement,
    exportStatement,
    .rule .declaration,
    .node .ifStatement
      (.seq [kw "if", condition, .role .consequence (.rule .statement),
        opt (.role .alternative (.node .elseClause (.seq [kw "else", .rule .statement])))]),
    forStatement, forInStatement,
    .node .whileStatement (.seq [kw "while", condition, substatement]),
    .node .doStatement
      (.seq [kw "do", substatement, kw "while", condition, opt (ending true)]),
    switchStatement, tryStatement,
    .node .returnStatement
      (.seq [kw "return", .alt [ending false, .seq [.rule .expressions, ending true]]]),
    .node .throwStatement (.seq [kw "throw", .rule .expressions, ending true]),
    jump .breakStatement "break",
    jump .continueStatement "continue",
    .node .debuggerStatement (.seq [kw "debugger", ending false]),
    .node .emptyStatement (sym ";"),
    .node .labeledStatement (.seq [label, sym ":", substatement]),
    .node .expressionStatement (.seq [.rule .expressions, ending true])]

/-- The expression of a phrase for statements. -/
def performed : Phrase → Script
  | .statement => statement
  | .block =>
    .node .statementBlock
      (.within false (.seq [openBrace, .many (.rule .statement), closeBrace, opt (lineEnd false)]))
  | .declaration => declaration goesOn
  | .classTail => classTail
  | _ => .alt []

end Codemod.Grammar.Script
