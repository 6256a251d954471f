import Codemod.Grammar.Bindings

/-!
Types.

Unions bind less tightly than intersections, and both less tightly than the operators in front of
a type; an array or an indexed type is written behind its element type.
-/
namespace Codemod.Grammar

open Rule

/-- The words that start a type of their own. -/
def reservedTypeWords : List String :=
  ["typeof", "keyof", "new", "infer", "readonly", "unique", "this", "true", "false", "null",
    "undefined", "const", "import", "any", "number", "boolean", "string", "symbol", "void",
    "unknown", "never", "object"]

def predefinedTypes : List String :=
  ["any", "number", "boolean", "string", "symbol", "void", "unknown", "never", "object"]

def typeName : SourceRule := token "type_identifier" (Lexeme.wordExcept reservedTypeWords)

def nestedModule (d : Dialect) : SourceRule :=
  let outer (left : Source.Node) : Option Source.Node :=
    if left.grammar == "nested_identifier" then
      some { left with
        kind := .memberExpression, grammar := "member_expression", field := some "object" }
    else some (left.filling "object")
  chain d.afterOther (token "identifier" (Lexeme.wordExcept reservedTypeWords))
    [("nested_identifier", outer,
      seq [mark ".", field "property" (name "property_identifier"), ahead (mark ".")])]

def nestedType (d : Dialect) : SourceRule :=
  node "nested_type_identifier" (seq [
    field "module" (nestedModule d), mark ".", field "name" (name "type_identifier")])

def namedType (d : Dialect) : SourceRule :=
  chain d.afterOther (alt [nestedType d, typeName])
    [("generic_type", operandAmong "name" ["nested_type_identifier", "type_identifier"],
      field "type_arguments" (ref .typeArguments))]

/-- The expression a type is asked of. -/
def typeQuery (d : Dialect) : SourceRule :=
  let member : SourceTail :=
    ("member_expression", operand "object",
      seq [alt [mark ".", optionalMark "?."],
        field "property" (alt [token "private_property_identifier" Lexeme.privateName,
          name "property_identifier"])])
  let index : SourceTail :=
    ("subscript_expression", operand "object",
      seq [opt (optionalMark "?."), mark "[",
        field "index" (enclosed (alt (
          (predefinedTypes.map fun t => node "predefined_type" (keyword t))
            ++ [stringLiteral, numberLiteral]))),
        mark "]"])
  let call : SourceTail :=
    ("call_expression", operand "function", field "arguments" (ref .argumentList))
  let instantiation : SourceTail :=
    ("instantiation_expression", operand "function",
      field "type_arguments" (ref .typeArguments))
  node "type_query" (seq [keyword "typeof",
    chain d.afterOther (alt [keyword "this", keyword "import", boundName])
      [member, index, call, instantiation]])

/-- A type of another module. -/
def importedType (d : Dialect) : SourceRule :=
  chain d.afterOther (seq [keyword "import", ahead (alt [mark ".", mark "("])]) [
    ("member_expression", operand "object",
      seq [mark ".", field "property" (name "property_identifier")]),
    ("call_expression", operand "function", field "arguments" (ref .argumentList))]

def literalType : SourceRule :=
  node "literal_type" (alt [
    node "unary_expression" (seq [field "operator" (alt [mark "-", mark "+"]),
      field "argument" numberLiteral]),
    numberLiteral, stringLiteral, keyword "true", keyword "false", keyword "null",
    keyword "undefined"])

def templateType : SourceRule :=
  node "template_literal_type" (seq [
    mark "`",
    many (alt [joined "string_fragment" Lexeme.templateRun,
      node "template_type" (seq [
        joined "$\x7b" (Lexeme.exact "$\x7b"), enclosed (ref .typeExpression), mark "\x7d"])]),
    joined "`" (Lexeme.exact "`")])

def tupleType (d : Dialect) : SourceRule :=
  let member : SourceRule := alt [
    node "required_parameter" (seq [
      field "name" (alt [boundName, restPattern]), field "type" (ref .typeClause)]),
    node "optional_parameter" (seq [
      field "name" boundName, mark "?", field "type" (ref .typeClause)]),
    node "rest_type" (seq [mark "...", ref .typeExpression]),
    chain d.afterOther (ref .typeExpression) [("optional_type", plainOperand, mark "?")]]
  node "tuple_type" (seq [
    mark "[", enclosed (seq [opt (commaSeparated member), opt (mark ",")]), mark "]"])

def primaryTypeRule (d : Dialect) : SourceRule :=
  alt [
    node "parenthesized_type" (seq [mark "(", enclosed (ref .typeExpression), mark ")"]),
    alt (predefinedTypes.map fun t => node "predefined_type" (keyword t)),
    node "predefined_type" (token "unique symbol" fun cs =>
      match Lexeme.keyword "unique" cs with
      | 0 => 0
      | n =>
        let gap := Lexeme.run Lexeme.isGap (cs.drop n)
        match Lexeme.keyword "symbol" (cs.drop (n + gap)) with
        | 0 => 0
        | m => n + gap + m),
    ref .objectType,
    tupleType d,
    node "flow_maybe_type" (seq [mark "?", ref .primaryType]),
    literalType,
    templateType,
    token "this_type" (Lexeme.keyword "this"),
    token "existential_type" (Lexeme.exact "*"),
    keyword "const",
    namedType d]

def typeOperandRule (d : Dialect) : SourceRule :=
  let arrowSign : List SourceRule := [mark "=>"]
  alt [
    node "function_type" (seq ([
      opt (field "type_parameters" (ref .typeParameters)),
      field "parameters" (ref .parameters)] ++ arrowSign ++ [
      field "return_type" (alt [assertion, typePredicate, ref .typeExpression])])),
    node "constructor_type" (seq ([
      opt (keyword "abstract"), keyword "new",
      opt (field "type_parameters" (ref .typeParameters)),
      field "parameters" (ref .parameters)] ++ arrowSign ++ [
      field "type" (ref .typeExpression)])),
    node "readonly_type" (seq [keyword "readonly", ref .typeOperand]),
    node "index_type_query" (seq [keyword "keyof", ref .typeOperand]),
    node "infer_type" (seq [keyword "infer", name "type_identifier",
      opt (seq [keyword "extends", ref .typeOperand, notAhead (mark "?")])]),
    typeQuery d,
    importedType d,
    chain d.afterOther (ref .primaryType) [
      ("array_type", plainOperand, seq [mark "[", mark "]"]),
      ("lookup_type", plainOperand, seq [mark "[", enclosed (ref .typeExpression), mark "]"])]]

def typeExpressionRule (d : Dialect) : SourceRule :=
  let intersection : SourceRule :=
    chain d.afterOther
      (alt [node "intersection_type" (seq [mark "&", ref .typeOperand]), ref .typeOperand])
      [("intersection_type", plainOperand, seq [mark "&", ref .typeOperand])]
  let union : SourceRule :=
    chain d.afterOther
      (alt [node "union_type" (seq [mark "|", intersection]), intersection])
      [("union_type", plainOperand, seq [mark "|", intersection])]
  chain d.afterOther union [
    ("conditional_type", operand "left", seq [
      keyword "extends", field "right" union, mark "?",
      field "consequence" (enclosed (ref .typeExpression)), mark ":",
      field "alternative" (ref .typeExpression)])]

def typeArgumentsRule : SourceRule :=
  node "type_arguments" (seq [
    mark "<", enclosed (seq [commaSeparated (ref .typeExpression), opt (mark ",")]), mark ">"])

def typeParametersRule : SourceRule :=
  let parameter : SourceRule :=
    node "type_parameter" (seq [
      opt (seq [keyword "const", ahead (name "type_identifier")]),
      field "name" (name "type_identifier"),
      opt (field "constraint" (node "constraint" (seq [
        alt [keyword "extends", mark ":"], ref .typeExpression]))),
      opt (field "value" (node "default_type" (seq [assignmentSign, ref .typeExpression])))])
  node "type_parameters" (seq [
    mark "<", enclosed (seq [commaSeparated parameter, opt (mark ",")]), mark ">"])

def typeClauseRule : SourceRule :=
  node "type_annotation" (seq [mark ":", ref .typeExpression])

def objectTypeBody (d : Dialect) : SourceRule :=
  let member : SourceRule := alt [
    methodSignature,
    node "construct_signature" (seq [
      opt (keyword "abstract"), keyword "new",
      opt (field "type_parameters" (ref .typeParameters)),
      field "parameters" (ref .parameters),
      opt (field "type" (ref .typeClause))]),
    node "call_signature" (ref .signature),
    indexSignature,
    node "property_signature" (seq [
      opt (accessModifier memberModifier),
      opt (memberModifier "static"),
      opt (overrideModifier memberModifier),
      opt (memberModifier "readonly"),
      field "name" (ref .propertyName),
      opt (mark "?"),
      opt (field "type" (ref .typeClause))])]
  let separator : SourceRule := alt [mark ",", d.plainTerminator]
  seq [
    mark "\x7b",
    terminable (opt (seq [
      opt (alt [mark ",", mark ";"]),
      member, many (seq [separator, member]),
      opt separator])),
    mark "\x7d"]

end Codemod.Grammar
