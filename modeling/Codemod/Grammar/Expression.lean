import Codemod.Grammar.Phrase

/-!
# Expressions, patterns and markup

The rules for what can stand for a value, for what a value can be taken apart into, and for markup
elements. Operators are read by precedence: the operation of level `n` grows by the operators of
level `n` and above.
-/

namespace Codemod.Grammar.Script

open Peg

/-! ### Operators -/

/-- The operators of two operands with their levels, from the loosest to the tightest. A sign is
given with the characters that must not follow it. -/
def signOperators : List (Nat × String × String) :=
  [(1, "??", "="), (2, "||", "="), (3, "&&", "="), (4, "|", "|="), (5, "^", "="), (6, "&", "&="),
    (7, "===", ""), (7, "!==", ""), (7, "==", "="), (7, "!=", "="),
    (8, "<=", ""), (8, ">=", ""), (8, "<", "<="), (8, ">", ">="),
    (9, ">>>", "="), (9, "<<", "="), (9, ">>", ">="),
    (10, "+", "+="), (10, "-", "-="), (11, "*", "*="), (11, "/", "="), (11, "%", "="),
    (12, "**", "=")]

/-- The level of comparisons, which `in`, `instanceof`, `as` and `satisfies` share. -/
def relationLevel : Nat := 8

/-- A binary operation grown from its left operand. All operators but the power associate to the
left. -/
def binaryStep (level : Nat) (operator : Script) : Step Phrase :=
  .mk (fun _ => true) .binaryExpression (some .left)
    (.seq [.role .operator operator,
      .role .right (.rule (.operation (if level = 12 then level else level + 1)))])

/-- The steps of the operators of a level and above. -/
def operatorSteps (level : Nat) : List (Step Phrase) :=
  (signOperators.filter fun op => level ≤ op.1).map
      (fun op => binaryStep op.1 (symBut op.2.1 op.2.2)) ++
    if level ≤ relationLevel then
      [binaryStep relationLevel (kw "instanceof"), binaryStep relationLevel (kw "in"),
        .mk (fun _ => true) .asExpression none
          (.seq [goesOn, kw "as", .alt [kw "const", .rule .typed]]),
        .mk (fun _ => true) .satisfiesExpression none
          (.seq [goesOn, kw "satisfies", .rule .typed])]
    else []

/-- The operators that combine an operation with an assignment. -/
def assignmentSigns : List String :=
  ["+=", "-=", "*=", "/=", "%=", "^=", "&=", "|=", ">>=", ">>>=", "<<=", "**=", "&&=", "||=", "??="]

/-- What can be assigned to. -/
def isAssignable (k : Kind) : Bool :=
  [Kind.identifier, .memberExpression, .subscriptExpression, .undefinedLiteral,
    .parenthesizedExpression, .nonNullExpression].contains k

/-- What cannot be the condition of a choice. -/
def isAssignment (k : Kind) : Bool :=
  k = .assignmentExpression || k = .augmentedAssignmentExpression

/-- The question mark of a choice, which is not the beginning of another operator. -/
def choiceMark : Script :=
  .leaf (.token "?") fun cs =>
    match cs with
    | '?' :: '?' :: _ => 0
    | '?' :: '.' :: c :: _ => if c.isDigit then 1 else 0
    | '?' :: _ => 1
    | _ => 0

/-- A choice from its mark on. The colon of a choice can be taken for the beginning of the result
type of an arrow function, which is why a choice is also tried without such a function. -/
def choice (consequence : Script) : Script :=
  .seq [choiceMark, .role .consequence (.within true consequence), sym ":",
    .role .alternative (.rule .expression)]

/-- The mark of an optional access. -/
def optionalMark : Script :=
  .leaf (.token "?.") fun cs =>
    match cs with
    | '?' :: '.' :: c :: _ => if c.isDigit then 0 else 2
    | '?' :: '.' :: [] => 2
    | _ => 0

/-! ### Functions -/

/-- An arrow function. -/
def arrowFunction : Script :=
  .node .arrowFunction
    (.seq [opt (.seq [kw "async", .alt [goesOn, ahead (.alt [sym "(", sym "<"])]]),
      .alt [.seq [.role .parameter declared, ahead (sym "=>")], signature],
      sym "=>",
      .role .body (.alt [.rule .block, .rule .expression])])

/-- A function as a value. -/
def functionExpression : Script :=
  .alt
    [.node .generatorFunction
      (.seq [opt (.seq [kw "async", goesOn]), kw "function", sym "*", opt (.role .name declared),
        signature, body]),
    .node .functionExpression
      (.seq [opt (.seq [kw "async", goesOn]), kw "function", opt (.role .name declared),
        signature, body])]

/-- A parameter with its modifiers and its default value. -/
def parameter : Script :=
  let front : Script := .seq [opt (.seq [access, ahead (.rule .pattern)]),
    opt (.seq [kw "readonly", ahead (.rule .pattern)]),
    .role .pattern (.alt [.leaf .thisKeyword (Lexeme.keyword "this".toList), .rule .pattern])]
  let back : Script := .seq [opt (.role .ascription ascription), opt initializer]
  .alt [.node .optionalParameter (.seq [front, sym "?", back]),
    .node .requiredParameter (.seq [front, back])]

/-- A word before the name of a member that says more about it. -/
def modifier (w : String) : Script := opt (.seq [kw w, ahead (.alt [key, sym "*"])])

/-- A method of an object or a class. -/
def method : Script :=
  .node .methodDefinition
    (.seq [opt (.seq [access, ahead key]), modifier "static", modifier "readonly",
      modifier "async",
      opt (.alt [.seq [kw "get", ahead key], .seq [kw "set", ahead key], sym "*"]),
      .role .name key, opt (sym "?"), signature, body])

/-! ### Patterns -/

/-- A pattern with a default value. -/
def withDefault (p : Script) : Script :=
  .grow p [.mk (fun k => k ≠ .assignmentPattern) .assignmentPattern (some .left)
    (.seq [symBut "=" "=>", .role .right (.rule .expression)])]

/-- The rest of an array, an object or an argument list. -/
def restPattern : Script := .node .restPattern (.seq [sym "...", .rule .bindingTarget])

/-- An entry of an object pattern. -/
def patternEntry : Script :=
  .alt
    [restPattern,
    .node .pairPattern
      (.seq [.role .key key, sym ":", .role .value (withDefault (.rule .bindingTarget))]),
    .grow (.leaf .shorthandPropertyIdentifierPattern Lexeme.name)
      [.mk (fun k => k = .shorthandPropertyIdentifierPattern) .objectAssignmentPattern (some .left)
        (.seq [symBut "=" "=>", .role .right (.rule .expression)])]]

/-- An object pattern. -/
def objectPattern : Script :=
  .node .objectPattern (inBraces (slots patternEntry))

/-- An array pattern. -/
def arrayPattern : Script :=
  .node .arrayPattern (inSquare (slots (withDefault (.rule .pattern))))

/-! ### Markup -/

/-- The name of a tag. -/
def tagName : Script :=
  .grow (.leaf .identifier Lexeme.tagName)
    [.mk (fun k => k = .identifier) .jsxNamespaceName none
      (.seq [sym ":", .leaf .identifier Lexeme.tagName]),
    .mk (fun k => k = .identifier || k = .memberExpression) .memberExpression (some .object)
      (.seq [sym ".", .role .property propertyName])]

/-- A string in a tag, between two quotes of one sort. -/
def tagString (quote : Char) : Script :=
  let mark := String.singleton quote
  .node .stringLiteral
    (.seq [sym mark,
      .many (.alt [.rawLeaf .stringFragment (Lexeme.attributePart quote),
        .rawLeaf .htmlCharacterReference Lexeme.characterReference]),
      sym mark])

/-- An attribute of a tag. -/
def tagAttribute : Script :=
  .alt
    [.node .jsxAttribute
      (.seq [.grow (.leaf .propertyIdentifier Lexeme.tagName) [],
        opt (.seq [sym "=", .alt [tagString '"', tagString '\'', .rule .container,
          .rule .element]])]),
    .rule .container]

/-- An attribute whose name has a prefix of its own. -/
def spacedAttribute : Script :=
  .node .jsxAttribute
    (.seq [.node .jsxNamespaceName
        (.seq [.leaf .identifier Lexeme.tagName, sym ":", .leaf .identifier Lexeme.tagName]),
      opt (.seq [sym "=", .alt [tagString '"', tagString '\'', .rule .container,
        .rule .element]])])

/-- What stands in a tag after its opening bracket. -/
def tagFront : Script :=
  .seq [.role .name tagName, opt (.role .typeArguments (.rule .typeArguments)),
    .many (.role .tagAttribute (.alt [spacedAttribute, tagAttribute]))]

/-- A child of an element. -/
def elementChild : Script :=
  .alt [.rawLeaf .jsxText Lexeme.markupText,
    .leaf .htmlCharacterReference Lexeme.characterReference,
    .rule .element, .rule .container]

/-- An opening tag. The tag of a fragment is empty. -/
def openingTag : Script := .seq [symBut "<" "/", opt tagFront, sym ">"]

/-- A closing tag. -/
def closingTag : Script := .seq [sym "</", opt (.role .name tagName), sym ">"]

/-- A tag without children. -/
def emptyTag : Script := .seq [symBut "<" "/", tagFront, sym "/>"]

/-- Two tags with the children between them. -/
def pairedTags : Script :=
  .seq [.role .openTag (.node .jsxOpeningElement openingTag),
    .many elementChild,
    .role .closeTag (.node .jsxClosingElement closingTag)]

/-- A markup element or fragment. -/
def element : Script :=
  .alt [.node .jsxElement pairedTags, .node .jsxSelfClosingElement emptyTag]

/-- An expression in braces among markup. -/
def container : Script :=
  .node .jsxExpression
    (inBraces (opt
      (.alt [.node .spreadElement (.seq [sym "...", .rule .expression]), .rule .expressions])))

/-! ### Values -/

/-- A string between two quotes of one sort. -/
def quoted (quote : Char) : Script :=
  let mark := String.singleton quote
  .node .stringLiteral
    (.seq [sym mark,
      .many (.alt [.rawLeaf .stringFragment (Lexeme.stringPart quote),
        .rawLeaf .escapeSequence Lexeme.escapeSequence]),
      sym mark])

/-- A template string. -/
def template : Script :=
  let mark := String.singleton (Char.ofNat 0x60)
  .node .templateString
    (.seq [sym mark,
      .many (.alt [.rawLeaf .stringFragment Lexeme.templatePart,
        .rawLeaf .escapeSequence Lexeme.escapeSequence,
        .node .templateSubstitution 
          (.seq [rawSym "$\x7b", .within true (.rule .expressions), closeBrace])]),
      rawSym mark])

/-- A regular expression. -/
def regex : Script :=
  .node .regexLiteral
    (.seq [symBut "/" "/*", .role .pattern (.rawLeaf .regexPattern (Lexeme.regexPart false)),
      rawSym "/", opt (.role .flags (.rawLeaf .regexFlags Lexeme.regexFlags))])

/-- A spread value. -/
def spread : Script := .node .spreadElement (.seq [sym "...", .rule .expression])

/-- A member of an object. -/
def objectMember : Script :=
  .alt [spread, .rule .method,
    .node .objectPair (.seq [.role .key key, sym ":", .role .value (.rule .expression)]),
    .leaf .shorthandPropertyIdentifier Lexeme.name]

/-- A class as a value. -/
def classExpression : Script :=
  .node .classExpression (.seq [kw "class", opt (.role .name typeName), .rule .classTail])

/-- An expression in parentheses. -/
def parenthesized : Script :=
  .node .parenthesizedExpression (inParens (.rule .expressions))

/-- The use of `new`, with or without arguments. -/
def newExpression : Script :=
  .alt
    [.node .metaProperty (.seq [kw "new", sym ".", kw "target"]),
    .node .newExpression
      (.seq [kw "new", .role .instantiated (.rule .instantiated),
        opt (.role .typeArguments (.rule .typeArguments)),
        opt (.role .arguments (.rule .arguments))])]

/-- A value that needs no operator. -/
def primary (dialect : Dialect) : Script :=
  .alt
    [functionExpression, used,
    .leaf .thisKeyword (Lexeme.keyword "this".toList),
    .leaf .superKeyword (Lexeme.keyword "super".toList),
    .leaf .trueLiteral (Lexeme.keyword "true".toList),
    .leaf .falseLiteral (Lexeme.keyword "false".toList),
    .leaf .nullLiteral (Lexeme.keyword "null".toList),
    .leaf .undefinedLiteral (Lexeme.keyword "undefined".toList),
    number, .rule .string, .rule .template, regex,
    .node .arrayLiteral (inSquare (slots (.alt [spread, .rule .expression]))),
    .rule .object, parenthesized, classExpression, newExpression,
    .node .metaProperty (.seq [kw "import", sym ".", kw "meta"]),
    .seq [.node .importKeyword (kw "import"), ahead (sym "(")],
    match dialect with
    | .tsx => .rule .element
    | .typescript => .alt []]

/-- The property after a dot. -/
def member : Script := .role .property (.alt [propertyName, privateName])

/-- The index in square brackets. -/
def index : Script := inSquare (.role .index (.rule .expressions))

/-- The steps from a value to one of its properties. -/
def memberSteps : List (Step Phrase) :=
  [.mk (fun _ => true) .memberExpression (some .object) (.seq [symBut "." ".", member]),
    .mk (fun _ => true) .subscriptExpression (some .object) index]

/-- The steps from a value to properties, calls and assertions. -/
def accessSteps : List (Step Phrase) :=
  let optional : Script := .role .optionalChain (.node .optionalChain optionalMark)
  memberSteps ++
    [.mk (fun _ => true) .callExpression (some .callee) (.role .arguments (.rule .arguments)),
      .mk (fun _ => true) .memberExpression (some .object) (.seq [optional, member]),
      .mk (fun _ => true) .subscriptExpression (some .object) (.seq [optional, index]),
      .mk (fun _ => true) .callExpression (some .callee)
        (.seq [optionalMark, opt (.role .typeArguments (.rule .typeArguments)),
          .role .arguments (.rule .arguments)]),
      .mk (fun _ => true) .callExpression (some .callee) (.role .arguments (.rule .template)),
      .mk (fun _ => true) .callExpression (some .callee)
        (.seq [.role .typeArguments (.rule .typeArguments),
          .role .arguments (.rule .arguments)]),
      .mk (fun _ => true) .nonNullExpression none (.seq [goesOn, symBut "!" "="])]

/-- A value with the operators of one operand. -/
def unary (dialect : Dialect) : Script :=
  let before (operator : Script) : Script :=
    .node .unaryExpression (.seq [.role .operator operator, .role .argument (.rule .unary)])
  let update : Script := .alt [sym "++", sym "--"]
  .alt
    [.node .updateExpression (.seq [.role .operator update, .role .argument (.rule .unary)]),
    before (.alt [symBut "!" "=", sym "~", symBut "-" "-=", symBut "+" "+=", kw "typeof",
      kw "void", kw "delete"]),
    .node .awaitExpression (.seq [kw "await", .rule .unary]),
    match dialect with
    | .tsx => .alt []
    | .typescript => .node .typeAssertion (.seq [.rule .typeArguments, .rule .unary]),
    .grow (.rule .access)
      [.mk isAssignable .updateExpression (some .argument)
        (.seq [goesOn, .role .operator update])]]

/-- A value that may give way to the function around it. -/
def yieldExpression : Script :=
  .node .yieldExpression
    (.seq [kw "yield",
      .alt [.seq [sym "*", .rule .expression],
        opt (.seq [.absent (lineEnd false), .rule .expression])]])

/-- An expression without commas. -/
def expression (dialect : Dialect) : Script :=
  let assigned : Script :=
    .node .assignmentExpression
      (.seq [.role .left (.alt [objectPattern, arrayPattern]), symBut "=" "=>",
        .role .right (.rule .expression)])
  let plain : Script :=
    .grow (.rule (.operation 0))
      [.mk isAssignable .assignmentExpression (some .left)
        (.seq [symBut "=" "=>", .role .right (.rule .expression)]),
      .mk isAssignable .augmentedAssignmentExpression (some .left)
        (.seq [.role .operator (.alt (assignmentSigns.map sym)),
          .role .right (.rule .expression)]),
      .mk (fun k => !isAssignment k) .ternaryExpression (some .condition)
        (.alt [choice (.rule .expression), choice (.rule (.operation 0))])]
  match dialect with
  | .tsx => .alt [.seq [.absent (sym "<"), arrowFunction], yieldExpression, assigned, plain,
      arrowFunction]
  | .typescript => .alt [arrowFunction, yieldExpression, assigned, plain]

/-- The expression of a phrase for values, patterns or markup. -/
def value (dialect : Dialect) : Phrase → Script
  | .expressions =>
    .grow (.rule .expression)
      [.mk (fun k => k ≠ .sequenceExpression) .sequenceExpression none
        (.seq [sym ",", .rule .expression, .many (.seq [sym ",", .rule .expression])])]
  | .expression => expression dialect
  | .operation level => .grow (.rule .unary) (operatorSteps level)
  | .unary => unary dialect
  | .access => .grow (.rule .primary) accessSteps
  | .instantiated => .grow (.rule .primary) memberSteps
  | .primary => primary dialect
  | .arguments =>
    .node .arguments (inParens (slots (.alt [spread, .rule .expression])))
  | .object => .node .objectLiteral (inBraces (slots objectMember))
  | .string => .alt [quoted '"', quoted '\'']
  | .template => template
  | .parameters =>
    .node .formalParameters (inParens (listedLoosely parameter))
  | .method => method
  | .pattern => .alt [restPattern, .rule .bindingTarget]
  | .bindingTarget => .alt [declared, objectPattern, arrayPattern]
  | .element => element
  | .container => container
  | _ => .alt []

end Codemod.Grammar.Script
