import Codemod.Grammar.Rule

/-!
The symbols of the source grammars, and the dialects that share them.
-/
namespace Codemod.Grammar

/-- What a source language allows beyond the common core. -/
structure Dialect where
  /-- Type annotations and declarations. -/
  types : Bool
  /-- Markup elements as expressions. -/
  markup : Bool

inductive Symbol where
  | statement
  | declaration
  | block
  | expression
  | expressions
  | operation (level : Nat)
  | unary
  | applied
  | creationTarget
  | primary
  | arrow
  | objectLiteral
  | arrayLiteral
  | template
  | propertyName
  | pattern
  | destructuring
  | parameters
  | signature
  | argumentList
  | classBody
  | decorator
  | typeExpression
  | typeOperand
  | primaryType
  | typeArguments
  | typeParameters
  | typeClause
  | objectType
  | element
  deriving DecidableEq, Hashable, Repr

abbrev SourceRule := Rule Symbol

namespace Dialect

/-- Where an expression may end a statement. -/
def afterExpression (d : Dialect) : LineEnd := ⟨d.types, true, false⟩

/-- Where something other than an expression may end a statement. -/
def afterOther (d : Dialect) : LineEnd := ⟨d.types, false, false⟩

/-- Where a function signature may end. -/
def afterSignature (d : Dialect) : LineEnd := ⟨d.types, false, true⟩

def whenTyped (d : Dialect) (rule : SourceRule) : SourceRule := if d.types then rule else .alt []

/-- A part that only the dialects with types have, and that may be left out there. -/
def optTyped (d : Dialect) (rule : SourceRule) : SourceRule :=
  if d.types then rule.opt else .seq []

def terminator (d : Dialect) : SourceRule := .alt [.lineEnd d.afterExpression, .mark ";"]

def plainTerminator (d : Dialect) : SourceRule := .alt [.lineEnd d.afterOther, .mark ";"]

end Dialect

end Codemod.Grammar
