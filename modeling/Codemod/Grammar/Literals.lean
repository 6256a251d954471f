import Codemod.Grammar.Symbol

/-!
Literals and property names.
-/
namespace Codemod.Grammar

open Rule

def quoted (quote : Char) : SourceRule :=
  node "string" (seq [
    mark quote.toString,
    many (alt [joined "string_fragment" (Lexeme.quotedRun quote),
      joined "escape_sequence" Lexeme.escape]),
    mark quote.toString])

def stringLiteral : SourceRule := alt [quoted '\x22', quoted '\x27']

def templateLiteral : SourceRule :=
  node "template_string" (seq [
    mark "`",
    many (alt [
      joined "string_fragment" Lexeme.templateRun,
      joined "escape_sequence" Lexeme.escape,
      node "template_substitution" (seq [
        joined "$\x7b" (Lexeme.exact "$\x7b"), enclosed (ref .expressions), mark "\x7d"])]),
    joined "`" (Lexeme.exact "`")])

def numberLiteral : SourceRule := token "number" Lexeme.number

def regexLiteral : SourceRule :=
  node "regex" (seq [
    mark "/",
    field "pattern" (joined "regex_pattern" Lexeme.regexBody),
    joined "/" (Lexeme.exact "/"),
    opt (field "flags" (joined "regex_flags" Lexeme.regexFlags))])

/-- The words that start an expression of their own and so name nothing there. -/
def reservedWords : List String :=
  ["this", "super", "true", "false", "null", "undefined", "new", "yield", "await", "typeof",
    "void", "delete", "function", "class", "import"]

def expressionName : SourceRule :=
  alt [keyword "undefined", token "identifier" (Lexeme.wordExcept reservedWords)]

def boundName : SourceRule := name "identifier"

/-- The name of a member: a word, a private name, a literal or a computed name. -/
def propertyName : SourceRule :=
  alt [
    name "property_identifier",
    token "private_property_identifier" Lexeme.privateName,
    stringLiteral,
    numberLiteral,
    node "computed_property_name" (seq [mark "[", enclosed (ref .expression), mark "]"])]

/-- A word in front of a member name that modifies the member. -/
def memberModifier (word : String) : SourceRule :=
  seq [keyword word, ahead (alt [ref .propertyName, mark "*"])]

end Codemod.Grammar
