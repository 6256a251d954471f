import Codemod.Grammar.Types

/-!
Statements and declarations.
-/
namespace Codemod.Grammar

open Rule

/-- The words that start a statement and so no expression statement and no label. -/
def statementWords (d : Dialect) : List String :=
  ["if", "for", "while", "do", "switch", "try", "with", "break", "continue", "debugger", "return",
    "throw", "var", "const", "export", "case", "default"]
    ++ if d.types then ["enum", "interface", "abstract"] else []

def wordAmong (words : List String) : SourceRule := alt (words.map keyword)

def moduleName : SourceRule := alt [boundName, stringLiteral]

def fromClause : SourceRule := seq [keyword "from", field "source" stringLiteral]

def braced (item : SourceRule) : SourceRule :=
  seq [mark "\x7b", enclosed (seq [opt (commaSeparated item), opt (mark ",")]), mark "\x7d"]

/-- A word that restricts an import or an export to types. -/
def typeModifier (d : Dialect) : SourceRule := d.whenTyped (wordAmong ["type", "typeof"])

/-- One name of an import list. A word `type` in front of a name restricts it to types. Before `as`
and at the end of the entry it is the name itself. -/
def importSpecifier (d : Dialect) : SourceRule :=
  let plain : SourceRule := alt [
    seq [field "name" moduleName, keyword "as", field "alias" boundName], field "name" boundName]
  node "import_specifier" (alt [
    d.whenTyped (seq [keyword "type", notAhead (keyword "as"), plain]),
    d.whenTyped (seq [keyword "typeof", plain]),
    seq [notAhead (d.whenTyped (keyword "typeof")), plain]])

def namespaceImport : SourceRule :=
  node "namespace_import" (seq [mark "*", keyword "as", boundName])

def namedImports (d : Dialect) : SourceRule := node "named_imports" (braced (importSpecifier d))

def importClause (d : Dialect) : SourceRule :=
  node "import_clause" (alt [
    namespaceImport,
    namedImports d,
    seq [boundName, opt (seq [mark ",", alt [namespaceImport, namedImports d]])]])

def equatedName (d : Dialect) : SourceRule :=
  seq [notAhead (typeModifier d), boundName, assignmentSign]

/-- An import. The word `type` restricts it to types unless `from` follows. -/
def importStatement (d : Dialect) : SourceRule :=
  let required : SourceRule := d.whenTyped (node "import_require_clause" (seq [
    equatedName d, keyword "require", mark "(", field "source" stringLiteral, mark ")"]))
  let what : SourceRule := alt [
    seq [importClause d, fromClause], required, field "source" stringLiteral]
  let rest : List SourceRule := [
    opt (node "import_attribute" (seq [keyword "with", ref .objectLiteral])),
    d.plainTerminator]
  alt [
    node "import_statement" (seq
      ([keyword "import", typeModifier d, notAhead (keyword "from"), what] ++ rest)),
    node "import_statement" (seq ([keyword "import", what] ++ rest))]

def dottedName (d : Dialect) : SourceRule :=
  let outer (left : Source.Node) : Option Source.Node :=
    if left.grammar == "nested_identifier" then
      some { left with
        kind := .memberExpression, grammar := "member_expression", field := some "object" }
    else some (left.filling "object")
  chain d.afterOther boundName
    [("nested_identifier", outer, seq [mark ".", field "property" (name "property_identifier")])]

def importAlias (d : Dialect) : SourceRule :=
  node "import_alias" (seq [
    keyword "import", equatedName d, dottedName d, d.plainTerminator])

def exportClause (d : Dialect) : SourceRule :=
  let plain : SourceRule :=
    seq [field "name" moduleName, opt (seq [keyword "as", field "alias" moduleName])]
  node "export_clause" (braced (node "export_specifier" (alt [
    seq [typeModifier d, plain], seq [notAhead (typeModifier d), plain]])))

def exportStatement (d : Dialect) : SourceRule :=
  let listed : SourceRule := seq [
    alt [
      seq [mark "*", fromClause],
      seq [node "namespace_export" (seq [mark "*", keyword "as", moduleName]), fromClause],
      seq [exportClause d, opt fromClause]],
    d.plainTerminator]
  let declared : SourceRule := alt [
    field "declaration" (ref .declaration),
    seq [keyword "default", alt [
      field "declaration" (ref .declaration),
      seq [field "value" (ref .expression), d.terminator]]]]
  let typed : SourceRule := d.whenTyped (alt [
    seq [keyword "type", exportClause d, opt fromClause, d.plainTerminator],
    seq [ahead (seq [keyword "import", equatedName d]), importAlias d],
    seq [assignmentSign, ref .expression, d.terminator],
    seq [keyword "as", keyword "namespace", boundName, d.plainTerminator]])
  alt [
    node "export_statement" (seq [keyword "export", alt [listed, typed]]),
    node "export_statement" (seq [decorators, keyword "export", declared])]

def variableDeclarator (d : Dialect) : SourceRule :=
  let assured : SourceRule := seq [
    field "name" boundName, markUnless "!" ["="], field "type" (ref .typeClause)]
  let plain : SourceRule := seq [
    field "name" (alt [ref .destructuring, boundName]),
    d.optTyped (field "type" (ref .typeClause)),
    opt initializer]
  node "variable_declarator" (alt [d.whenTyped assured, plain])

def variableStatement (d : Dialect) : SourceRule :=
  let rest : List SourceRule := [commaSeparated (variableDeclarator d), d.terminator]
  alt [
    node "lexical_declaration" (seq
      ([field "kind" (alt [keyword "let", keyword "const"])] ++ rest)),
    node "variable_declaration" (seq ([keyword "var"] ++ rest))]

/-- The end that a declaration with a body may carry. -/
def softEnd (d : Dialect) : SourceRule := opt (lineEnd d.afterOther)

def functionDeclaration (d : Dialect) : SourceRule :=
  let start : List SourceRule := [opt (keyword "async"), keyword "function"]
  let rest : List SourceRule :=
    [field "name" boundName, ref .signature, field "body" (ref .block), softEnd d]
  alt [
    node "generator_function_declaration" (seq (start ++ [mark "*"] ++ rest)),
    node "function_declaration" (seq (start ++ rest)),
    d.whenTyped (node "function_signature" (seq (start ++ [
      field "name" boundName, ref .signature,
      alt [lineEnd d.afterSignature, mark ";"]])))]

def classDeclaration (d : Dialect) : SourceRule :=
  alt [
    node "class_declaration" (seq
      ([decorators, keyword "class"] ++ classRest d true ++ [softEnd d])),
    d.whenTyped (node "abstract_class_declaration" (seq
      ([decorators, keyword "abstract", keyword "class"] ++ classRest d true)))]

def moduleRest (d : Dialect) : List SourceRule :=
  [field "name" (alt [stringLiteral, dottedName d]), opt (field "body" (ref .block))]

def enumDeclaration : SourceRule :=
  let member : SourceRule := alt [
    node "enum_assignment" (seq [field "name" (ref .propertyName), initializer]),
    field "name" (ref .propertyName)]
  node "enum_declaration" (seq [
    opt (keyword "const"), keyword "enum", field "name" boundName,
    field "body" (node "enum_body" (seq [
      mark "\x7b", enclosed (opt (seq [commaSeparated member, opt (mark ",")])),
      mark "\x7d"]))])

def typedDeclarations (d : Dialect) : List SourceRule := [
  node "module" (seq ([keyword "module"] ++ moduleRest d)),
  node "internal_module" (seq ([keyword "namespace"] ++ moduleRest d)),
  node "type_alias_declaration" (seq [
    keyword "type", field "name" (name "type_identifier"),
    opt (field "type_parameters" (ref .typeParameters)),
    assignmentSign, field "value" (ref .typeExpression), d.plainTerminator]),
  node "interface_declaration" (seq [
    keyword "interface", field "name" (name "type_identifier"),
    opt (field "type_parameters" (ref .typeParameters)),
    opt (node "extends_type_clause" (seq [
      keyword "extends", enclosed (commaSeparated (field "type" (namedType d)))])),
    field "body" (node "interface_body" (objectTypeBody d))]),
  importAlias d,
  node "ambient_declaration" (seq [keyword "declare", alt [
    ref .declaration,
    seq [keyword "global", ref .block],
    seq [keyword "module", mark ".", name "property_identifier", mark ":", ref .typeExpression,
      d.plainTerminator]]])]

def declarationRule (d : Dialect) : SourceRule :=
  alt ([functionDeclaration d, classDeclaration d, d.whenTyped enumDeclaration,
    variableStatement d] ++ if d.types then typedDeclarations d else [])

def blockRule (d : Dialect) : SourceRule :=
  node "statement_block" (seq [
    mark "\x7b", terminable (many (ref .statement)), mark "\x7d", softEnd d])

def condition : SourceRule :=
  node "parenthesized_expression" (seq [mark "(", enclosed (ref .expressions), mark ")"])

def emptyStatement : SourceRule := node "empty_statement" (mark ";")

def forStatement (d : Dialect) : SourceRule :=
  let header : SourceRule := seq [
    alt [
      field "initializer" (variableStatement d),
      seq [field "initializer" (ref .expressions), mark ";"],
      field "initializer" emptyStatement],
    alt [
      seq [field "condition" (ref .expressions), mark ";"],
      field "condition" emptyStatement],
    opt (field "increment" (ref .expressions))]
  node "for_statement" (seq [
    keyword "for", mark "(", enclosed header, mark ")", field "body" (ref .statement)])

def forInStatement : SourceRule :=
  let bound : SourceRule := field "left" (alt [ref .destructuring, boundName])
  let header : SourceRule := seq [
    alt [
      seq [field "kind" (alt [keyword "let", keyword "const"]), bound,
        ahead (wordAmong ["in", "of"])],
      seq [field "kind" (keyword "var"), bound, opt initializer],
      field "left" (alt [condition, ref .pattern])],
    field "operator" (wordAmong ["in", "of"]),
    field "right" (ref .expressions)]
  node "for_in_statement" (seq [
    keyword "for", opt (keyword "await"), mark "(", enclosed header, mark ")",
    field "body" (ref .statement)])

def ifStatement : SourceRule :=
  node "if_statement" (seq [
    keyword "if", field "condition" condition, field "consequence" (ref .statement),
    opt (field "alternative" (node "else_clause" (seq [keyword "else", ref .statement])))])

def switchStatement : SourceRule :=
  let body : SourceRule := field "body" (terminable (many (ref .statement)))
  node "switch_statement" (seq [
    keyword "switch", field "value" condition,
    field "body" (node "switch_body" (seq [
      mark "\x7b",
      many (alt [
        node "switch_case" (seq [
          keyword "case", field "value" (enclosed (ref .expressions)), mark ":", body]),
        node "switch_default" (seq [keyword "default", mark ":", body])]),
      mark "\x7d"]))])

def whileStatement : SourceRule :=
  node "while_statement" (seq [
    keyword "while", field "condition" condition, field "body" (ref .statement)])

def doStatement (d : Dialect) : SourceRule :=
  node "do_statement" (seq [
    keyword "do", field "body" (ref .statement), keyword "while", field "condition" condition,
    opt d.plainTerminator])

def tryStatement (d : Dialect) : SourceRule :=
  let parameter : SourceRule := seq [
    mark "(", enclosed (seq [
      field "parameter" (alt [ref .destructuring, boundName]),
      d.optTyped (field "type" (ref .typeClause))]), mark ")"]
  node "try_statement" (seq [
    keyword "try", field "body" (ref .block),
    opt (field "handler" (node "catch_clause" (seq [
      keyword "catch", opt parameter, field "body" (ref .block)]))),
    opt (field "finalizer" (node "finally_clause" (seq [
      keyword "finally", field "body" (ref .block)])))])

def withStatement : SourceRule :=
  node "with_statement" (seq [
    keyword "with", field "object" condition, field "body" (ref .statement)])

def jumpStatement (d : Dialect) (nodeName word : String) : SourceRule :=
  node nodeName (seq [keyword word, alt [
    d.plainTerminator,
    seq [field "label" (name "statement_identifier"), d.plainTerminator]]])

def returnStatement (d : Dialect) : SourceRule :=
  node "return_statement" (seq [keyword "return", alt [
    d.plainTerminator, seq [ref .expressions, d.terminator]]])

def throwStatement (d : Dialect) : SourceRule :=
  node "throw_statement" (seq [keyword "throw", ref .expressions, d.terminator])

def labeledStatement (d : Dialect) : SourceRule :=
  node "labeled_statement" (seq [
    field "label" (token "statement_identifier"
      (Lexeme.wordExcept (statementWords d ++ reservedWords))),
    mark ":", field "body" (ref .statement)])

/-- An expression as a statement. It begins with none of the words of other statements, with no
declaration, and with a brace only where the brace opens an object. -/
def expressionStatement (d : Dialect) : SourceRule :=
  node "expression_statement" (seq [
    notAhead (wordAmong (statementWords d)),
    notAhead (seq [opt (keyword "async"), keyword "function", opt (mark "*"), boundName]),
    notAhead (seq [keyword "class",
      token "identifier" (Lexeme.wordExcept ["extends", "implements"])]),
    alt [notAhead (mark "\x7b"), ahead looksLikeObject],
    ref .expressions, d.terminator])

def statementRule (d : Dialect) : SourceRule :=
  alt [
    exportStatement d, importStatement d, ref .declaration, ref .block,
    ifStatement, switchStatement, forInStatement, forStatement d, whileStatement, doStatement d,
    tryStatement d, withStatement,
    jumpStatement d "break_statement" "break", jumpStatement d "continue_statement" "continue",
    node "debugger_statement" (seq [keyword "debugger", d.plainTerminator]),
    returnStatement d, throwStatement d, emptyStatement,
    labeledStatement d, expressionStatement d]

end Codemod.Grammar
