/-!
Kinds of source nodes.

A grammar gives every node a name. `Kind.ofName` keeps apart the few kinds that the structural
questions ask about and calls all the rest `other`.
-/
namespace Codemod.Source

/-- What a node is, as far as structural questions go. -/
inductive Kind where
  | program
  | importDeclaration
  | importClause
  | namedImports
  | importSpecifier
  | namespaceImport
  | stringLiteral
  | identifier
  | variableStatement
  | variableDeclarator
  | exportStatement
  | objectLiteral
  | property
  | shorthandProperty
  | arrayLiteral
  | call
  | argumentList
  | memberExpression
  | decorator
  | comment
  | openBrace
  | closeBrace
  | openBracket
  | closeBracket
  | openParen
  | closeParen
  | comma
  | semicolon
  | other
  deriving DecidableEq, Repr, Inhabited

namespace Kind

def ofName : String → Kind
  | "program" => program
  | "import_statement" => importDeclaration
  | "import_clause" => importClause
  | "named_imports" => namedImports
  | "import_specifier" => importSpecifier
  | "namespace_import" => namespaceImport
  | "string" => stringLiteral
  | "identifier" | "property_identifier" | "type_identifier" => identifier
  | "lexical_declaration" | "variable_declaration" => variableStatement
  | "variable_declarator" => variableDeclarator
  | "export_statement" => exportStatement
  | "object" => objectLiteral
  | "pair" => property
  | "shorthand_property_identifier" => shorthandProperty
  | "array" => arrayLiteral
  | "call_expression" => call
  | "arguments" => argumentList
  | "member_expression" => memberExpression
  | "decorator" => decorator
  | "comment" => comment
  | "\x7b" => openBrace
  | "\x7d" => closeBrace
  | "[" => openBracket
  | "]" => closeBracket
  | "(" => openParen
  | ")" => closeParen
  | "," => comma
  | ";" => semicolon
  | _ => other

/-- Comments and the marks that delimit and separate the members of a list. -/
def isPunctuationOrTrivia : Kind → Bool
  | comment | openBrace | closeBrace | openBracket | closeBracket | openParen | closeParen
  | comma | semicolon => true
  | _ => false

/-- The marks after which a list needs no separating comma. -/
def opensOrSeparates : Kind → Bool
  | openBrace | openBracket | openParen | comma => true
  | _ => false

def label : Kind → String
  | program => "Program"
  | importDeclaration => "ImportDeclaration"
  | importClause => "ImportClause"
  | namedImports => "NamedImports"
  | importSpecifier => "ImportSpecifier"
  | namespaceImport => "NamespaceImport"
  | stringLiteral => "StringLiteral"
  | identifier => "Identifier"
  | variableStatement => "VariableStatement"
  | variableDeclarator => "VariableDeclarator"
  | exportStatement => "ExportStatement"
  | objectLiteral => "ObjectLiteral"
  | property => "Property"
  | shorthandProperty => "ShorthandProperty"
  | arrayLiteral => "ArrayLiteral"
  | call => "Call"
  | argumentList => "ArgumentList"
  | memberExpression => "MemberExpression"
  | decorator => "Decorator"
  | comment => "Comment"
  | openBrace => "OpenBrace"
  | closeBrace => "CloseBrace"
  | openBracket => "OpenBracket"
  | closeBracket => "CloseBracket"
  | openParen => "OpenParen"
  | closeParen => "CloseParen"
  | comma => "Comma"
  | semicolon => "Semicolon"
  | other => "Other"

end Kind

end Codemod.Source
