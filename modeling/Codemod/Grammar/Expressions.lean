import Codemod.Grammar.Literals

/-!
Expressions.

Binary operators are listed with their level; an operand of an operator is an operation of the
next level up, so that operators of one level group to the left. Assignments, conditional
expressions and arrow functions group to the right.
-/
namespace Codemod.Grammar

open Rule

/-- A binary operator, the larger marks it is no part of, and how tightly it binds. -/
structure BinaryOperator where
  text : String
  longer : List String
  level : Nat
  groupsRight : Bool := false

def binaryOperators : List BinaryOperator :=
  [⟨"??", ["="], 0, false⟩, ⟨"||", ["="], 1, false⟩, ⟨"&&", ["="], 2, false⟩,
    ⟨"|", ["|", "="], 3, false⟩, ⟨"^", ["="], 4, false⟩, ⟨"&", ["&", "="], 5, false⟩,
    ⟨"===", [], 6, false⟩, ⟨"!==", [], 6, false⟩, ⟨"==", ["="], 6, false⟩,
    ⟨"!=", ["="], 6, false⟩, ⟨"<=", [], 7, false⟩, ⟨">=", [], 7, false⟩,
    ⟨"<", ["<", "="], 7, false⟩, ⟨">", [">", "="], 7, false⟩,
    ⟨">>>", ["="], 8, false⟩, ⟨">>", [">", "="], 8, false⟩, ⟨"<<", ["="], 8, false⟩,
    ⟨"+", ["+", "="], 9, false⟩, ⟨"-", ["-", "="], 9, false⟩,
    ⟨"**", ["="], 11, true⟩, ⟨"*", ["*", "="], 10, false⟩,
    ⟨"/", ["="], 10, false⟩, ⟨"%", ["="], 10, false⟩]

def binaryWords : List String := ["instanceof", "in"]

def relationLevel : Nat := 7

abbrev SourceTail := String × (Source.Node → Option Source.Node) × SourceRule

def binaryTail (operator : SourceRule) (level : Nat) : SourceTail :=
  ("binary_expression", operand "left",
    seq [field "operator" operator, field "right" (ref (.operation level))])

/-- The mark of a conditional expression, which is told from the marks that also begin so. -/
def questionMark (d : Dialect) : SourceRule :=
  .token "?" fun cs =>
    match cs with
    | '?' :: '?' :: _ => 0
    | '?' :: rest =>
      let next := if d.types then rest.dropWhile LineEnd.isSpace else rest
      match next with
      | '.' :: more => if (more.head?.map Char.isDigit).getD false then 1 else 0
      | c :: _ => if d.types && (c == ':' || c == ')' || c == ',') then 0 else 1
      | [] => 1
    | _ => 0

/-- The two results of a conditional expression. A parenthesised first result may look like the
parameters of an arrow function whose return type is the second; that reading comes first and is
given up where it leaves no second result. -/
def conditionalTail (d : Dialect) : SourceTail :=
  let consequence (returnTypes : Bool) : SourceRule :=
    field "consequence" (within (fun _ => ⟨false, returnTypes⟩) (ref .expression))
  let alternative : SourceRule := seq [mark ":", field "alternative" (ref .expression)]
  ("ternary_expression", operand "condition",
    seq [questionMark d, alt [seq [consequence true, alternative],
      seq [consequence false, alternative]]])

/-- What may follow an operand at a level. -/
def operationTails (d : Dialect) (level : Nat) : List SourceTail :=
  let marks := (binaryOperators.filter fun op => level ≤ op.level).map fun op =>
    binaryTail (markUnless op.text op.longer) (if op.groupsRight then op.level else op.level + 1)
  let words := if level ≤ relationLevel then
      binaryWords.map fun word => binaryTail (keyword word) (relationLevel + 1)
    else []
  let conversions := if level == 0 && d.types then
      [("as_expression", plainOperand,
          seq [keyword "as", alt [keyword "const", ref .typeExpression]]),
        ("satisfies_expression", plainOperand, seq [keyword "satisfies", ref .typeExpression])]
    else []
  let conditional := if level == 0 then [conditionalTail d] else []
  marks ++ words ++ conversions ++ conditional

/-- The question whether an object has a private member. -/
def privateMembership : SourceRule :=
  node "binary_expression" (seq [
    field "left" (token "private_property_identifier" Lexeme.privateName),
    field "operator" (keyword "in"),
    field "right" (ref (.operation (relationLevel + 1)))])

def operationRule (d : Dialect) (level : Nat) : SourceRule :=
  let operand : SourceRule :=
    if level ≤ relationLevel then alt [ref .unary, privateMembership] else ref .unary
  chain d.afterExpression operand (operationTails d level)

def augmentedOperators : List String :=
  ["+=", "-=", "*=", "/=", "%=", "^=", "&=", "|=", ">>=", ">>>=", "<<=", "**=", "&&=", "||=", "??="]

def assignable : List String :=
  ["identifier", "member_expression", "subscript_expression", "non_null_expression",
    "parenthesized_expression", "undefined"]

def assignmentSign : SourceRule := markUnless "=" ["=", ">"]

def initializer : SourceRule := seq [assignmentSign, field "value" (ref .expression)]

def expressionRule (d : Dialect) : SourceRule :=
  alt [
    node "yield_expression" (seq [keyword "yield",
      alt [
        seq [mark "*", ref .expression],
        seq [notAhead (lineEnd d.afterExpression), ref .expression],
        seq []]]),
    node "assignment_expression" (seq [
      field "left" (ref .destructuring), assignmentSign, field "right" (ref .expression)]),
    chain d.afterExpression (ref (.operation 0)) [
      ("assignment_expression", operandAmong "left" assignable,
        seq [assignmentSign, field "right" (ref .expression)]),
      ("augmented_assignment_expression", operandAmong "left" assignable,
        seq [field "operator" (alt (augmentedOperators.map mark)),
          field "right" (ref .expression)])]]

def expressionsRule (d : Dialect) : SourceRule :=
  chain d.afterExpression (ref .expression)
    [("sequence_expression", plainOperand,
      seq [mark ",", commaSeparated (ref .expression)])]

def unaryRule (d : Dialect) : SourceRule :=
  let signs : SourceRule :=
    alt [mark "!", mark "~", markUnless "-" ["-"], markUnless "+" ["+"],
      keyword "typeof", keyword "void", keyword "delete"]
  let steps : SourceRule := field "operator" (alt [mark "++", mark "--"])
  let assertion : SourceRule :=
    if d.types && !d.markup then
      node "type_assertion" (seq [ref .typeArguments, ref .unary])
    else alt []
  alt [
    node "update_expression" (seq [steps, field "argument" (ref .unary)]),
    node "unary_expression" (seq [field "operator" signs, field "argument" (ref .unary)]),
    node "await_expression" (seq [keyword "await", ref .unary]),
    chain d.afterExpression (ref .applied) [("update_expression", operand "argument", steps)],
    if d.markup then ref .element else alt [],
    assertion]

def optionalMark (as_ : String) : SourceRule :=
  token as_ fun cs =>
    match cs with
    | '?' :: '.' :: rest => if (rest.head?.map Char.isDigit).getD false then 0 else 2
    | _ => 0

def accessTails : List SourceTail :=
  [("member_expression", operand "object",
      seq [alt [markUnless "." [".."], field "optional_chain" (optionalMark "optional_chain")],
        field "property" (alt [token "private_property_identifier" Lexeme.privateName,
          name "property_identifier"])]),
    ("subscript_expression", operand "object",
      seq [opt (field "optional_chain" (optionalMark "optional_chain")),
        mark "[", field "index" (enclosed (ref .expressions)), mark "]"])]

def taggedTail : SourceTail :=
  ("call_expression", operand "function", field "arguments" (ref .template))

/-- The exclamation mark that says a value is there. -/
def nonNullTail (d : Dialect) : List SourceTail :=
  if d.types then [("non_null_expression", plainOperand, markUnless "!" ["="])] else []

def callTails (d : Dialect) : List SourceTail :=
  let types : SourceRule := d.optTyped (field "type_arguments" (ref .typeArguments))
  [("call_expression", operand "function", seq [types, field "arguments" (ref .argumentList)]),
    ("call_expression", operand "function",
      seq [if d.types then optionalMark "?." else
          field "optional_chain" (optionalMark "optional_chain"),
        types, field "arguments" (ref .argumentList)])]

/-- Type arguments that no call follows. They are told from comparisons by what comes next. -/
def instantiationTail (d : Dialect) : List SourceTail :=
  if d.types then
    [("instantiation_expression", plainOperand,
      seq [field "type_arguments" (ref .typeArguments),
        ahead (alt [mark ")", mark "]", mark "\x7d", mark ";", mark ",", mark ".", mark ":",
          mark "=", lineEnd d.afterExpression])])]
  else []

def appliedRule (d : Dialect) : SourceRule :=
  chain d.afterExpression (ref .primary)
    (accessTails ++ [taggedTail] ++ nonNullTail d ++ callTails d ++ instantiationTail d)

/-- What may stand after `new`: no call, so that the first argument list belongs to it. -/
def creationTargetRule (d : Dialect) : SourceRule :=
  chain d.afterExpression (alt [ref .primary]) (accessTails ++ [taggedTail] ++ nonNullTail d)

def creation (d : Dialect) : SourceRule :=
  node "new_expression" (seq [
    keyword "new", field "constructor" (ref .creationTarget),
    alt [seq [d.optTyped (field "type_arguments" (ref .typeArguments)),
        field "arguments" (ref .argumentList)], seq []]])

def metaProperty : SourceRule :=
  node "meta_property" (alt [
    seq [keyword "new", mark ".", keyword "target"],
    seq [keyword "import", mark ".", keyword "meta"]])

def parenthesized (d : Dialect) : SourceRule :=
  node "parenthesized_expression" (seq [
    mark "(",
    enclosed (seq [ref .expressions, d.optTyped (field "type" (ref .typeClause))]),
    mark ")"])

def functionExpression : SourceRule :=
  let rest : List SourceRule :=
    [opt (field "name" boundName), ref .signature, field "body" (ref .block)]
  alt [
    node "generator_function" (seq
      ([opt (keyword "async"), keyword "function", mark "*"] ++ rest)),
    node "function_expression" (seq ([opt (keyword "async"), keyword "function"] ++ rest))]

def classRest (d : Dialect) (named : Bool) : List SourceRule :=
  let breaks := ["extends", "implements"]
  let className : SourceRule := field "name"
    (if d.types then token "type_identifier" (Lexeme.wordExcept breaks)
      else token "identifier" (Lexeme.wordExcept ["extends"]))
  let extension : SourceRule := seq [
    field "value" (ref .applied),
    opt (field "type_arguments" (ref .typeArguments))]
  let implementsClause : SourceRule :=
    node "implements_clause" (seq [keyword "implements", commaSeparated (ref .typeExpression)])
  let heritage : SourceRule :=
    if d.types then
      node "class_heritage" (alt [
        seq [node "extends_clause" (seq [keyword "extends", commaSeparated extension]),
          opt implementsClause],
        implementsClause])
    else node "class_heritage" (seq [keyword "extends", ref .expression])
  [if named then className else opt className,
    d.optTyped (field "type_parameters" (ref .typeParameters)),
    opt (enclosed heritage),
    field "body" (ref .classBody)]

def decorators : SourceRule := many (field "decorator" (ref .decorator))

def classExpression (d : Dialect) : SourceRule :=
  node "class" (seq ([decorators, keyword "class"] ++ classRest d false))

def primaryRule (d : Dialect) : SourceRule :=
  alt [
    ref .arrow,
    parenthesized d,
    keyword "this", keyword "super", keyword "true", keyword "false", keyword "null",
    numberLiteral, stringLiteral, ref .template, regexLiteral,
    ref .objectLiteral, ref .arrayLiteral,
    functionExpression, classExpression d,
    metaProperty, creation d,
    seq [token "import" (Lexeme.keyword "import"), ahead (alt [mark "(", mark "."])],
    d.whenTyped (node "internal_module" (seq [keyword "namespace",
      field "name" boundName, field "body" (ref .block)])),
    expressionName]

/-- A body between braces that is read as an object after all: only a member with a colon tells. -/
def looksLikeObject : SourceRule :=
  seq [mark "\x7b", alt [mark ",", mark "...", seq [ref .propertyName, mark ":"]]]

def arrowRule (d : Dialect) : SourceRule :=
  let signature : SourceRule :=
    alt [seq [given Setting.returnTypes, ref .signature],
      seq [given fun s => !s.returnTypes,
        seq [d.optTyped (field "type_parameters" (ref .typeParameters)),
          field "parameters" (ref .parameters)]]]
  let body : SourceRule := seq [mark "=>",
    field "body" (alt [ref .block,
      seq [alt [notAhead (mark "\x7b"), ahead looksLikeObject], ref .expression]])]
  let single : SourceRule := field "parameter" expressionName
  alt [
    node "arrow_function" (seq [keyword "async", alt [single, signature], body]),
    node "arrow_function" (seq [alt [single, signature], body])]

def objectRule (d : Dialect) : SourceRule :=
  let modifiers : List SourceRule :=
    (if d.types then [opt (memberModifier "public"), opt (memberModifier "readonly")] else [])
  let method : SourceRule :=
    node "method_definition" (seq (modifiers ++ [
      opt (memberModifier "async"),
      opt (alt [memberModifier "get", memberModifier "set", mark "*"]),
      field "name" (ref .propertyName),
      d.optTyped (mark "?"),
      ref .signature,
      field "body" (ref .block)]))
  let member : SourceRule :=
    alt [
      node "spread_element" (seq [mark "...", ref .expression]),
      node "pair" (seq [field "key" (ref .propertyName), mark ":",
        field "value" (ref .expression)]),
      method,
      name "shorthand_property_identifier"]
  node "object" (seq [mark "\x7b", enclosed (commaSparse member), mark "\x7d"])

def spreadable : SourceRule :=
  alt [node "spread_element" (seq [mark "...", ref .expression]), ref .expression]

def arrayRule : SourceRule :=
  node "array" (seq [mark "[", enclosed (commaSparse spreadable), mark "]"])

def argumentListRule : SourceRule :=
  node "arguments" (seq [mark "(", enclosed (commaSparse spreadable), mark ")"])

def decoratorRule (d : Dialect) : SourceRule :=
  let among (fieldName : String) (node : Source.Node) : Option Source.Node :=
    operandAmong fieldName ["identifier", "member_expression"] node
  let call : SourceRule :=
    chain d.afterOther boundName [
      ("member_expression", among "object",
        seq [mark ".", field "property" (name "property_identifier")]),
      ("call_expression", among "function",
        seq [d.optTyped (field "type_arguments" (ref .typeArguments)),
          field "arguments" (ref .argumentList)])]
  node "decorator" (seq [mark "@", alt [enclosed call,
    d.whenTyped (node "parenthesized_expression" (seq [mark "(", enclosed call, mark ")"]))]])

end Codemod.Grammar
