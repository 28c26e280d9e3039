import Codemod.Grammar.Phrase

/-!
# Types

The rules for type expressions, type parameters, type arguments and the members of object types.
-/

namespace Codemod.Grammar.Script

open Peg

/-- The types that have a keyword of their own. -/
def predefinedTypes : List String :=
  ["any", "number", "boolean", "string", "symbol", "void", "unknown", "never", "object"]

/-- A value as a type. -/
def literalType : Script :=
  .node .literalType
    (.alt [.rule .string, number,
      .leaf .nullLiteral (Lexeme.keyword "null".toList),
      .leaf .undefinedLiteral (Lexeme.keyword "undefined".toList),
      .leaf .trueLiteral (Lexeme.keyword "true".toList),
      .leaf .falseLiteral (Lexeme.keyword "false".toList)])

/-- The name of a type with the modules around it and its arguments. -/
def namedType : Script :=
  let qualified : Script :=
    .node .nestedTypeIdentifier
      (.seq [.role .qualifier
          (.grow declared
            [.mk (fun k => k = .identifier || k = .nestedIdentifier) .nestedIdentifier
              (some .object)
              (.seq [sym ".", .role .property propertyName, ahead (sym ".")])]),
        sym ".", .role .name typeName])
  .grow (.alt [qualified, typeName])
    [.mk (fun k => k = .typeIdentifier || k = .nestedTypeIdentifier) .genericType (some .name)
      (.role .typeArguments (.rule .typeArguments))]

/-- The type of a value. -/
def typeQuery : Script :=
  .node .typeQuery
    (.seq [kw "typeof",
      .grow declared
        [.mk (fun _ => true) .memberExpression (some .object)
          (.seq [sym ".", .role .property propertyName])]])

/-- A type that needs no operator. -/
def primaryType : Script :=
  .alt
    [.node .predefinedType (.alt (predefinedTypes.map kw)),
    literalType, typeQuery,
    .node .indexTypeQuery (.seq [kw "keyof", .rule .arrayType]),
    .node .readonlyType (.seq [kw "readonly", .rule .arrayType]),
    .node .objectType (.rule .typeMembers),
    .node .tupleType (inSquare (listedLoosely (.rule .typed))),
    .node .parenthesizedType (inParens (.rule .typed)),
    namedType]

/-- A function type. -/
def functionType : Script :=
  .node .functionType
    (.seq [opt (.role .typeParameters (.rule .typeParameters)),
      .role .parameters (.rule .parameters), sym "=>", .role .returnType (.rule .typed)])

/-- A type parameter with its bound. -/
def typeParameter : Script :=
  .node .typeParameter
    (.seq [.role .name typeName,
      opt (.role .constraint (.node .typeConstraint (.seq [kw "extends", .rule .typed])))])

/-- A member of an object type. -/
def typeMember : Script :=
  let front : Script := .seq [opt (.seq [kw "readonly", ahead key]), .role .name key, opt (sym "?")]
  .alt
    [.node .methodSignature (.seq [front, signature]),
    .node .propertySignature (.seq [front, opt (.role .ascription ascription)])]

/-- The expression of a phrase for types. -/
def typed : Phrase → Script
  | .typed => .alt [functionType, .rule .unionType]
  | .unionType =>
    .grow (.rule .intersectionType)
      [.mk (fun _ => true) .unionType none (.seq [symBut "|" "|", .rule .intersectionType])]
  | .intersectionType =>
    .grow (.rule .arrayType)
      [.mk (fun _ => true) .intersectionType none (.seq [symBut "&" "&", .rule .arrayType])]
  | .arrayType =>
    .grow (.rule .primaryType)
      [.mk (fun _ => true) .arrayType none (.seq [goesOn, sym "[", sym "]"]),
      .mk (fun _ => true) .lookupType none (.seq [goesOn, inSquare (.rule .typed)])]
  | .primaryType => primaryType
  | .typeArguments =>
    .node .typeArguments (inAngles (.seq [listed (.rule .typed), opt (sym ",")]))
  | .typeParameters =>
    .node .typeParameters (inAngles (.seq [listed typeParameter, opt (sym ",")]))
  | .typeMembers =>
    let apart : Script := .alt [sym ",", ending false]
    .seq [openBrace,
      .within false (opt (.seq [typeMember, .many (.seq [apart, typeMember]), opt apart])),
      closeBrace]
  | _ => .alt []

end Codemod.Grammar.Script
