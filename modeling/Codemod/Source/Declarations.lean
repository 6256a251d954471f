import Codemod.Source.File
import Codemod.Source.Imports

/-!
Top-level variables and the objects they are set to.
-/
namespace Codemod.SourceFile

open Source

/-- The variable statement that a top-level statement is or exports. -/
def variableStatementOf (statement : Node) : Option Node :=
  match statement.kind with
  | .exportStatement =>
    (statement.child? "declaration").filter fun d => d.isKind .variableStatement
  | .variableStatement => some statement
  | _ => none

def declarators (file : SourceFile) : List Node :=
  (file.root.children.filterMap variableStatementOf).flatMap fun d => d.allOf .variableDeclarator

/-- An object behind parentheses and type conversions. The fuel bounds their number. -/
def unwrapObject : Nat → Node → Option Node
  | 0, _ => none
  | fuel + 1, expression =>
    match expression.kind with
    | .objectLiteral => some expression
    | .other =>
      if ["as_expression", "satisfies_expression", "parenthesized_expression"].contains
          expression.grammar then
        match expression.significant with
        | inner :: _ => unwrapObject fuel inner
        | [] => none
      else none
    | _ => none

def objectOf (declarator : Node) : Option Node :=
  (declarator.child? "value").bind fun value => unwrapObject value.count value

/-- The object of the first top-level declarator that has one, among those of a name if one is
given. -/
def declaredObject (file : SourceFile) (name : Option String) : Option Node :=
  (file.declarators.filter fun d =>
    match name with
    | some name => file.spells name (d.child? "name")
    | none => true).findSome? objectOf

/-- The member of an object with a key. Methods and spread members have none. -/
def property? (file : SourceFile) (object : Node) (key : String) : Option Node :=
  object.children.find? fun member =>
    match member.kind with
    | .property =>
      match member.child? "key" with
      | some k => unquote (file.textOf k) == key
      | none => false
    | .shorthandProperty => file.textOf member == key
    | _ => false

end Codemod.SourceFile
