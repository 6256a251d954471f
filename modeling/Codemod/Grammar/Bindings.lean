import Codemod.Grammar.Expressions

/-!
Patterns that bind names, parameter lists, and classes.
-/
namespace Codemod.Grammar

open Rule

def withDefault (d : Dialect) (pattern : SourceRule) : SourceRule :=
  chain d.afterOther pattern
    [("assignment_pattern", operandAmong "left"
        ["identifier", "undefined", "object_pattern", "array_pattern", "member_expression",
          "subscript_expression", "non_null_expression"],
      seq [assignmentSign, field "right" (ref .expression)])]

def restPattern : SourceRule := node "rest_pattern" (seq [mark "...", ref .pattern])

/-- The braces or brackets that take a value apart. -/
def destructuringRule (d : Dialect) : SourceRule :=
  let pairPattern : SourceRule :=
    node "pair_pattern" (seq [field "key" (ref .propertyName), mark ":",
      field "value" (withDefault d (ref .pattern))])
  let defaulted : SourceRule :=
    node "object_assignment_pattern" (seq [
      field "left" (alt [name "shorthand_property_identifier_pattern", ref .destructuring]),
      assignmentSign, field "right" (ref .expression)])
  let member : SourceRule :=
    alt [pairPattern, restPattern, defaulted, name "shorthand_property_identifier_pattern"]
  alt [
    node "object_pattern" (seq [mark "\x7b", enclosed (commaSparse member), mark "\x7d"]),
    node "array_pattern" (seq [
      mark "[", enclosed (commaSparse (withDefault d (ref .pattern))), mark "]"])]

/-- A target for a value: a name, a member of something named, or a nested pattern. -/
def patternRule (d : Dialect) : SourceRule :=
  let target : SourceRule :=
    chain d.afterOther (alt [keyword "this", expressionName])
      (accessTails ++ nonNullTail d ++ callTails d)
  alt [ref .destructuring, restPattern, target]

/-- What a parameter may be introduced by, in front of its pattern. -/
def parameterModifier (word : String) : SourceRule :=
  seq [keyword word,
    ahead (alt [name "identifier", mark "\x7b", mark "["])]

def accessModifier (modifier : String → SourceRule) : SourceRule :=
  node "accessibility_modifier" (alt [modifier "public", modifier "private", modifier "protected"])

def overrideModifier (modifier : String → SourceRule) : SourceRule :=
  node "override_modifier" (modifier "override")

def typedParameter : SourceRule :=
  let start : List SourceRule := [
    decorators,
    opt (accessModifier parameterModifier),
    opt (overrideModifier parameterModifier),
    opt (parameterModifier "readonly"),
    field "pattern" (alt [keyword "this", ref .pattern])]
  let rest : List SourceRule :=
    [opt (field "type" (ref .typeClause)), opt initializer]
  alt [
    node "optional_parameter" (seq (start ++ [mark "?"] ++ rest)),
    node "required_parameter" (seq (start ++ rest))]

def parametersRule (d : Dialect) : SourceRule :=
  let parameter : SourceRule :=
    if d.types then typedParameter else withDefault d (ref .pattern)
  node "formal_parameters" (seq [
    mark "(", enclosed (opt (seq [commaSeparated parameter, opt (mark ",")])), mark ")"])

/-- A type predicate such as `x is T`. -/
def typePredicate : SourceRule :=
  node "type_predicate" (seq [
    field "name" (alt [keyword "this", boundName]), keyword "is",
    field "type" (ref .typeExpression)])

def assertion : SourceRule :=
  node "asserts" (seq [keyword "asserts", alt [typePredicate, keyword "this", boundName]])

def signatureRule (d : Dialect) : SourceRule :=
  let result : SourceRule := alt [
    node "type_predicate_annotation" (seq [mark ":", typePredicate]),
    node "asserts_annotation" (seq [mark ":", assertion]),
    ref .typeClause]
  seq [
    d.optTyped (field "type_parameters" (ref .typeParameters)),
    field "parameters" (ref .parameters),
    d.optTyped (field "return_type" result)]

def plainClassBody (d : Dialect) : SourceRule :=
  let method : SourceRule :=
    node "method_definition" (seq [
      decorators,
      opt (memberModifier "static"),
      opt (memberModifier "async"),
      opt (alt [memberModifier "get", memberModifier "set", mark "*"]),
      field "name" (ref .propertyName),
      field "parameters" (ref .parameters),
      field "body" (ref .block)])
  let fieldDefinition : SourceRule :=
    node "field_definition" (seq [
      decorators,
      opt (memberModifier "static"),
      field "property" (ref .propertyName),
      opt initializer])
  node "class_body" (seq [
    mark "\x7b",
    terminable (many (alt [
      seq [field "member" method, opt (mark ";")],
      seq [field "member" fieldDefinition, d.terminator],
      field "member" (node "class_static_block" (seq [
        keyword "static", field "body" (ref .block)])),
      mark ";"])),
    mark "\x7d"])

/-- The modifiers of a method, in their order. -/
def methodModifiers : List SourceRule := [
  opt (accessModifier memberModifier),
  opt (memberModifier "static"),
  opt (overrideModifier memberModifier),
  opt (memberModifier "readonly"),
  opt (memberModifier "async"),
  opt (alt [memberModifier "get", memberModifier "set", mark "*"])]

def methodSignature : SourceRule :=
  node "method_signature" (seq (methodModifiers ++ [
    field "name" (ref .propertyName), opt (mark "?"), ref .signature]))

/-- An index signature or a mapped type. -/
def indexSignature : SourceRule :=
  let mapped : SourceRule :=
    node "mapped_type_clause" (seq [
      field "name" (name "type_identifier"), keyword "in",
      field "type" (ref .typeExpression),
      opt (seq [keyword "as", field "alias" (ref .typeExpression)])])
  let plain : SourceRule :=
    seq [field "name" boundName, mark ":", field "index_type" (ref .typeExpression)]
  node "index_signature" (seq [
    opt (seq [opt (field "sign" (alt [mark "-", mark "+"])), keyword "readonly"]),
    mark "[", enclosed (alt [mapped, plain]), mark "]",
    field "type" (alt [
      node "omitting_type_annotation" (seq [mark "-?:", ref .typeExpression]),
      node "adding_type_annotation" (seq [mark "+?:", ref .typeExpression]),
      node "opting_type_annotation" (seq [mark "?:", ref .typeExpression]),
      ref .typeClause])])

def publicField : SourceRule :=
  node "public_field_definition" (seq [
    decorators,
    opt (memberModifier "declare"),
    opt (accessModifier memberModifier),
    opt (memberModifier "declare"),
    opt (memberModifier "static"),
    opt (overrideModifier memberModifier),
    opt (memberModifier "abstract"),
    opt (memberModifier "readonly"),
    opt (memberModifier "abstract"),
    opt (memberModifier "accessor"),
    field "name" (ref .propertyName),
    opt (alt [mark "?", markUnless "!" ["="]]),
    opt (field "type" (ref .typeClause)),
    opt initializer])

def typedClassBody (d : Dialect) : SourceRule :=
  let method : SourceRule :=
    node "method_definition" (seq (methodModifiers ++ [
      field "name" (ref .propertyName), opt (mark "?"), ref .signature,
      field "body" (ref .block)]))
  let abstractMethod : SourceRule :=
    node "abstract_method_signature" (seq [
      opt (accessModifier memberModifier),
      memberModifier "abstract",
      opt (overrideModifier memberModifier),
      opt (alt [memberModifier "get", memberModifier "set", mark "*"]),
      field "name" (ref .propertyName), opt (mark "?"), ref .signature])
  node "class_body" (seq [
    mark "\x7b",
    terminable (many (alt [
      seq [decorators, method, opt d.plainTerminator],
      seq [methodSignature, alt [lineEnd d.afterSignature, mark ","]],
      node "class_static_block" (seq [keyword "static", field "body" (ref .block)]),
      seq [alt [abstractMethod, indexSignature, methodSignature],
        alt [d.plainTerminator, mark ","]],
      seq [publicField, alt [d.terminator, mark ","]],
      mark ";"])),
    mark "\x7d"])

def classBodyRule (d : Dialect) : SourceRule :=
  if d.types then typedClassBody d else plainClassBody d

end Codemod.Grammar
