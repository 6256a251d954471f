import Codemod.Change.Rendering
import Codemod.Source.Calls

/-!
Whether a change is there already.
-/
namespace Codemod.SourceFile

open Source

/-- The text contains a snippet that is not empty. -/
def containsText (file : SourceFile) (snippet : String) : Bool :=
  snippet != "" && Text.occursIn snippet.toList file.text.toList

/-- The object of a declarator has a member with the key. -/
def objectHasKey (file : SourceFile) (declarator : Option String) (key : String) : Bool :=
  match file.declaredObject declarator with
  | some object => (file.property? object key).isSome
  | none => false

/-- A value import of the module binds the name. -/
def importBinds (file : SourceFile) (identifier module : String) : Bool :=
  file.valueImports.any fun node =>
    file.importsFrom module node && file.importIntroduces false identifier node

/-- A top-level variable has the name. -/
def declares (file : SourceFile) (identifier : String) : Bool :=
  file.declarators.any fun d => file.spells identifier (d.child? "name")

/-- A value import or a top-level variable binds the name. -/
def bindsValue (file : SourceFile) (identifier : String) : Bool :=
  file.valueImports.any (file.importIntroduces false identifier) || file.declares identifier

/-- An import of any sort or a top-level variable binds the name. -/
def nameTaken (file : SourceFile) (identifier : String) : Bool :=
  file.imports.any (file.importIntroduces true identifier) || file.declares identifier

/-- The list in which a call registers its elements. -/
def registry (file : SourceFile) (property : Option String) (call : Node) : Option Node :=
  match property with
  | some property =>
    ((objectArgument call).bind fun object => file.property? object property).bind arrayValue
  | none => call.child? "arguments"

/-- The first call of the callee has the token among its elements, blanks aside. -/
def callRegisters (file : SourceFile) (callee : String) (property : Option String)
    (token : String) : Bool :=
  match (file.findCall callee).bind (file.registry property) with
  | some elements =>
    elements.significant.any fun e => Text.squash (file.textOf e) == Text.squash token
  | none => false

def isPresent (file : SourceFile) : Change → Bool
  | .appendField declarator key entries =>
    file.objectHasKey declarator key || file.containsText (renderField key entries)
  | .insertImport identifier module => file.importBinds identifier module
  | .register callee property token => file.callRegisters callee property token

end Codemod.SourceFile
