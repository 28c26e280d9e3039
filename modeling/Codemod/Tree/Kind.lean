/-!
# Kinds and roles of nodes

Every node of a tree has a kind. A token that stands for itself, such as a keyword or a bracket,
has its own spelling for a kind; all other kinds have a name of their own. A node may also play a
role for its parent, such as being the condition of a statement.
-/

namespace Codemod

/-- The kind of a node: a literal token, or one of the named kinds. -/
inductive Kind where
  | token (spelling : String)
  | abstractClassDeclaration | accessibilityModifier | ambientDeclaration | arguments
  | arrayLiteral | arrayPattern | arrayType | arrowFunction | asExpression
  | assignmentExpression | assignmentPattern | augmentedAssignmentExpression | awaitExpression
  | binaryExpression | breakStatement | callExpression | catchClause | classExpression
  | classBody | classDeclaration | classHeritage | comment | computedPropertyName
  | typeConstraint | continueStatement | debuggerStatement | doStatement | elseClause
  | emptyStatement | enumAssignment | enumBody | enumDeclaration | escapeSequence
  | exportClause | exportSpecifier | exportStatement | expressionStatement | extendsClause
  | extendsTypeClause | falseLiteral | finallyClause | forInStatement | forStatement
  | formalParameters | functionDeclaration | functionExpression | functionType
  | generatorFunction | generatorFunctionDeclaration | genericType | hashBangLine
  | htmlCharacterReference | identifier | ifStatement | implementsClause | importKeyword
  | importAttribute | importClause | importRequireClause | importSpecifier | importStatement
  | indexTypeQuery | interfaceBody | interfaceDeclaration | intersectionType | jsxAttribute
  | jsxClosingElement | jsxElement | jsxExpression | jsxNamespaceName | jsxOpeningElement
  | jsxSelfClosingElement | jsxText | labeledStatement | lexicalDeclaration | literalType
  | lookupType | memberExpression | metaProperty | methodDefinition | methodSignature
  | namedImports | namespaceExport | namespaceImport | nestedIdentifier | nestedTypeIdentifier
  | newExpression | nonNullExpression | nullLiteral | numberLiteral | objectLiteral
  | objectAssignmentPattern | objectPattern | objectType | optionalChain | optionalParameter
  | objectPair | pairPattern | parenthesizedExpression | parenthesizedType | predefinedType
  | privatePropertyIdentifier | program | propertyIdentifier | propertySignature
  | publicFieldDefinition | readonlyType | regexLiteral | regexFlags | regexPattern
  | requiredParameter | restPattern | returnStatement | satisfiesExpression
  | sequenceExpression | shorthandPropertyIdentifier | shorthandPropertyIdentifierPattern
  | spreadElement | statementBlock | statementIdentifier | stringLiteral | stringFragment
  | subscriptExpression | superKeyword | switchBody | switchCase | switchDefault
  | switchStatement | templateString | templateSubstitution | ternaryExpression | thisKeyword
  | throwStatement | trueLiteral | tryStatement | tupleType | typeAliasDeclaration
  | typeAscription | typeArguments | typeAssertion | typeIdentifier | typeParameter
  | typeParameters | typeQuery | unaryExpression | undefinedLiteral | unionType
  | updateExpression | variableDeclaration | variableDeclarator | whileStatement
  | yieldExpression
  deriving DecidableEq, Repr, Inhabited

namespace Kind

/-- The name under which a kind is asked for. -/
def name : Kind → String
  | token spelling => spelling
  | abstractClassDeclaration => "abstract_class_declaration"
  | accessibilityModifier => "accessibility_modifier"
  | ambientDeclaration => "ambient_declaration"
  | arguments => "arguments"
  | arrayLiteral => "array"
  | arrayPattern => "array_pattern"
  | arrayType => "array_type"
  | arrowFunction => "arrow_function"
  | asExpression => "as_expression"
  | assignmentExpression => "assignment_expression"
  | assignmentPattern => "assignment_pattern"
  | augmentedAssignmentExpression => "augmented_assignment_expression"
  | awaitExpression => "await_expression"
  | binaryExpression => "binary_expression"
  | breakStatement => "break_statement"
  | callExpression => "call_expression"
  | catchClause => "catch_clause"
  | classExpression => "class"
  | classBody => "class_body"
  | classDeclaration => "class_declaration"
  | classHeritage => "class_heritage"
  | comment => "comment"
  | computedPropertyName => "computed_property_name"
  | typeConstraint => "constraint"
  | continueStatement => "continue_statement"
  | debuggerStatement => "debugger_statement"
  | doStatement => "do_statement"
  | elseClause => "else_clause"
  | emptyStatement => "empty_statement"
  | enumAssignment => "enum_assignment"
  | enumBody => "enum_body"
  | enumDeclaration => "enum_declaration"
  | escapeSequence => "escape_sequence"
  | exportClause => "export_clause"
  | exportSpecifier => "export_specifier"
  | exportStatement => "export_statement"
  | expressionStatement => "expression_statement"
  | extendsClause => "extends_clause"
  | extendsTypeClause => "extends_type_clause"
  | falseLiteral => "false"
  | finallyClause => "finally_clause"
  | forInStatement => "for_in_statement"
  | forStatement => "for_statement"
  | formalParameters => "formal_parameters"
  | functionDeclaration => "function_declaration"
  | functionExpression => "function_expression"
  | functionType => "function_type"
  | generatorFunction => "generator_function"
  | generatorFunctionDeclaration => "generator_function_declaration"
  | genericType => "generic_type"
  | hashBangLine => "hash_bang_line"
  | htmlCharacterReference => "html_character_reference"
  | identifier => "identifier"
  | ifStatement => "if_statement"
  | implementsClause => "implements_clause"
  | importKeyword => "import"
  | importAttribute => "import_attribute"
  | importClause => "import_clause"
  | importRequireClause => "import_require_clause"
  | importSpecifier => "import_specifier"
  | importStatement => "import_statement"
  | indexTypeQuery => "index_type_query"
  | interfaceBody => "interface_body"
  | interfaceDeclaration => "interface_declaration"
  | intersectionType => "intersection_type"
  | jsxAttribute => "jsx_attribute"
  | jsxClosingElement => "jsx_closing_element"
  | jsxElement => "jsx_element"
  | jsxExpression => "jsx_expression"
  | jsxNamespaceName => "jsx_namespace_name"
  | jsxOpeningElement => "jsx_opening_element"
  | jsxSelfClosingElement => "jsx_self_closing_element"
  | jsxText => "jsx_text"
  | labeledStatement => "labeled_statement"
  | lexicalDeclaration => "lexical_declaration"
  | literalType => "literal_type"
  | lookupType => "lookup_type"
  | memberExpression => "member_expression"
  | metaProperty => "meta_property"
  | methodDefinition => "method_definition"
  | methodSignature => "method_signature"
  | namedImports => "named_imports"
  | namespaceExport => "namespace_export"
  | namespaceImport => "namespace_import"
  | nestedIdentifier => "nested_identifier"
  | nestedTypeIdentifier => "nested_type_identifier"
  | newExpression => "new_expression"
  | nonNullExpression => "non_null_expression"
  | nullLiteral => "null"
  | numberLiteral => "number"
  | objectLiteral => "object"
  | objectAssignmentPattern => "object_assignment_pattern"
  | objectPattern => "object_pattern"
  | objectType => "object_type"
  | optionalChain => "optional_chain"
  | optionalParameter => "optional_parameter"
  | objectPair => "pair"
  | pairPattern => "pair_pattern"
  | parenthesizedExpression => "parenthesized_expression"
  | parenthesizedType => "parenthesized_type"
  | predefinedType => "predefined_type"
  | privatePropertyIdentifier => "private_property_identifier"
  | program => "program"
  | propertyIdentifier => "property_identifier"
  | propertySignature => "property_signature"
  | publicFieldDefinition => "public_field_definition"
  | readonlyType => "readonly_type"
  | regexLiteral => "regex"
  | regexFlags => "regex_flags"
  | regexPattern => "regex_pattern"
  | requiredParameter => "required_parameter"
  | restPattern => "rest_pattern"
  | returnStatement => "return_statement"
  | satisfiesExpression => "satisfies_expression"
  | sequenceExpression => "sequence_expression"
  | shorthandPropertyIdentifier => "shorthand_property_identifier"
  | shorthandPropertyIdentifierPattern => "shorthand_property_identifier_pattern"
  | spreadElement => "spread_element"
  | statementBlock => "statement_block"
  | statementIdentifier => "statement_identifier"
  | stringLiteral => "string"
  | stringFragment => "string_fragment"
  | subscriptExpression => "subscript_expression"
  | superKeyword => "super"
  | switchBody => "switch_body"
  | switchCase => "switch_case"
  | switchDefault => "switch_default"
  | switchStatement => "switch_statement"
  | templateString => "template_string"
  | templateSubstitution => "template_substitution"
  | ternaryExpression => "ternary_expression"
  | thisKeyword => "this"
  | throwStatement => "throw_statement"
  | trueLiteral => "true"
  | tryStatement => "try_statement"
  | tupleType => "tuple_type"
  | typeAliasDeclaration => "type_alias_declaration"
  | typeAscription => "type_annotation"
  | typeArguments => "type_arguments"
  | typeAssertion => "type_assertion"
  | typeIdentifier => "type_identifier"
  | typeParameter => "type_parameter"
  | typeParameters => "type_parameters"
  | typeQuery => "type_query"
  | unaryExpression => "unary_expression"
  | undefinedLiteral => "undefined"
  | unionType => "union_type"
  | updateExpression => "update_expression"
  | variableDeclaration => "variable_declaration"
  | variableDeclarator => "variable_declarator"
  | whileStatement => "while_statement"
  | yieldExpression => "yield_expression"

/-- Literal tokens are anonymous, all other nodes are named. -/
def isNamed : Kind → Bool
  | token _ => false
  | _ => true

end Kind

/-- The role that a node plays for its parent. -/
inductive Role where
  | name | localName | source | keyword | value | ascription | left | right | operator | argument
  | condition | consequence | alternative | body | parameter | parameters | returnType
  | typeParameters | typeArguments | callee | arguments | object | property | optionalChain
  | index | instantiated | key | declaration | label | initializer | increment | handler
  | finalizer | pattern | flags | openTag | closeTag | tagAttribute | qualifier | constraint
  deriving DecidableEq, Repr, Inhabited

namespace Role

/-- The name under which a role is asked for. -/
def spelling : Role → String
  | name => "name"
  | localName => "alias"
  | source => "source"
  | keyword => "kind"
  | value => "value"
  | ascription => "type"
  | left => "left"
  | right => "right"
  | operator => "operator"
  | argument => "argument"
  | condition => "condition"
  | consequence => "consequence"
  | alternative => "alternative"
  | body => "body"
  | parameter => "parameter"
  | parameters => "parameters"
  | returnType => "return_type"
  | typeParameters => "type_parameters"
  | typeArguments => "type_arguments"
  | callee => "function"
  | arguments => "arguments"
  | object => "object"
  | property => "property"
  | optionalChain => "optional_chain"
  | index => "index"
  | instantiated => "constructor"
  | key => "key"
  | declaration => "declaration"
  | label => "label"
  | initializer => "initializer"
  | increment => "increment"
  | handler => "handler"
  | finalizer => "finalizer"
  | pattern => "pattern"
  | flags => "flags"
  | openTag => "open_tag"
  | closeTag => "close_tag"
  | tagAttribute => "attribute"
  | qualifier => "module"
  | constraint => "constraint"

end Role

end Codemod
