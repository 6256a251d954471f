import Codemod.Grammar.Markup
import Codemod.Source.Language

/-!
Whole programs.

`Language.readProgram` reads a text to its tree, or finds that it is no program of the language.
-/
namespace Codemod

open Grammar Rule

namespace Grammar

def Dialect.rules (d : Dialect) : Symbol → SourceRule
  | .statement => statementRule d
  | .declaration => declarationRule d
  | .block => blockRule d
  | .expression => expressionRule d
  | .expressions => expressionsRule d
  | .operation level => operationRule d level
  | .unary => unaryRule d
  | .applied => appliedRule d
  | .creationTarget => creationTargetRule d
  | .primary => primaryRule d
  | .arrow => arrowRule d
  | .objectLiteral => objectRule d
  | .arrayLiteral => arrayRule
  | .template => templateLiteral
  | .propertyName => propertyName
  | .pattern => patternRule d
  | .destructuring => destructuringRule d
  | .parameters => parametersRule d
  | .signature => signatureRule d
  | .argumentList => argumentListRule
  | .classBody => classBodyRule d
  | .decorator => decoratorRule d
  | .typeExpression => typeExpressionRule d
  | .typeOperand => typeOperandRule d
  | .primaryType => primaryTypeRule d
  | .typeArguments => typeArgumentsRule
  | .typeParameters => typeParametersRule
  | .typeClause => typeClauseRule
  | .objectType => node "object_type" (objectTypeBody d)
  | .element => elementRule d

/-- A program is a list of statements, after the line that may name an interpreter. -/
def programRule : SourceRule :=
  seq [opt (token "hash_bang_line" Lexeme.interpreterLine), terminable (many (ref .statement))]

/-- How deep rules may nest in a text. -/
def depthBound (text : List Char) : Nat := 128 * (text.length + 8)

end Grammar

namespace Language

def dialect : Language → Dialect
  | typeScript => ⟨true, false⟩
  | tsx => ⟨true, true⟩
  | javaScript => ⟨false, true⟩

/-- The tree of a program; none if the text is malformed. -/
def readProgram (language : Language) (text : String) : Option Source.Node :=
  let cs := text.toList
  let reading := Rule.read language.dialect.rules (depthBound cs) ⟨true, true⟩ programRule ⟨cs, 0⟩
  match (reading.run ∅).1 with
  | none => none
  | some (nodes, p) =>
    let (comments, q) := p.skipTrivia
    if q.rest.isEmpty then
      let children := nodes ++ comments
      let start := (children.head?.map Source.Node.start).getD q.offset
      some (Source.Node.ofGrammar "program" start q.offset children)
    else none

end Language

end Codemod
