import Codemod.Grammar.Statements

/-!
Markup elements as expressions.
-/
namespace Codemod.Grammar

open Rule

def markupName (as_ : String) : SourceRule :=
  token as_ fun cs => max (Lexeme.hyphenName cs) (Lexeme.word cs)

def namespacedName : SourceRule :=
  node "jsx_namespace_name" (seq [markupName "identifier", mark ":", markupName "identifier"])

def elementName (d : Dialect) : SourceRule :=
  alt [namespacedName,
    chain d.afterOther (markupName "identifier") [
      ("member_expression", operand "object",
        seq [mark ".", field "property" (name "property_identifier")])]]

def markupExpression : SourceRule :=
  node "jsx_expression" (seq [
    mark "\x7b",
    enclosed (opt (alt [node "spread_element" (seq [mark "...", ref .expression]),
      ref .expressions])),
    mark "\x7d"])

def characterReference : SourceRule :=
  joined "html_character_reference" Lexeme.characterReference

def markupString (quote : Char) : SourceRule :=
  node "string" (seq [
    mark quote.toString,
    many (alt [joined "string_fragment" (Lexeme.markupQuotedRun quote), characterReference]),
    joined quote.toString (Lexeme.exact quote.toString)])

def markupAttribute : SourceRule :=
  let value : SourceRule :=
    alt [markupString '\x22', markupString '\x27', markupExpression, ref .element]
  alt [
    markupExpression,
    node "jsx_attribute" (seq [
      alt [namespacedName, markupName "property_identifier"],
      opt (seq [mark "=", value])])]

def elementStart (d : Dialect) : SourceRule :=
  seq [field "name" (elementName d),
    d.optTyped (field "type_arguments" (ref .typeArguments)),
    many (field "attribute" markupAttribute)]

def elementRule (d : Dialect) : SourceRule :=
  let child : SourceRule := alt [
    joined "jsx_text" Lexeme.markupRun,
    characterReference,
    ref .element,
    markupExpression]
  alt [
    node "jsx_self_closing_element" (enclosed (seq [mark "<", elementStart d, mark "/>"])),
    node "jsx_element" (enclosed (seq [
      field "open_tag" (node "jsx_opening_element" (seq [
        mark "<", opt (elementStart d), mark ">"])),
      many child,
      field "close_tag" (node "jsx_closing_element" (seq [
        mark "</", opt (field "name" (elementName d)), mark ">"]))]))]

end Codemod.Grammar
