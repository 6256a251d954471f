import Codemod.Source.Declarations

/-!
Calls and what they are given.
-/
namespace Codemod.SourceFile

open Source

def isCallOf (file : SourceFile) (callee : String) (node : Node) : Bool :=
  node.isKind .call &&
    match node.child? "function" with
    | some f => Text.squash (file.textOf f) == Text.squash callee
    | none => false

/-- The first call of a callee in document order. -/
def findCall (file : SourceFile) (callee : String) : Option Node :=
  file.root.descendants.find? (file.isCallOf callee)

/-- The first object among a call's arguments. -/
def objectArgument (call : Node) : Option Node :=
  (call.child? "arguments").bind fun arguments =>
    arguments.significant.find? fun a => a.isKind .objectLiteral

def arrayValue (member : Node) : Option Node :=
  (member.child? "value").filter fun v => v.isKind .arrayLiteral

end Codemod.SourceFile
