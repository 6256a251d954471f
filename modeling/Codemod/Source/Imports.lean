import Codemod.Source.File
import Codemod.Text.Blank
import Codemod.Module.Specifier

/-!
The imports of a source file, and the names they bind.
-/
namespace Codemod.SourceFile

open Source

/-- A text without blanks around it and without a pair of quotes around the rest. -/
def unquote (text : String) : String :=
  let trimmed := Text.trim text.toList
  match trimmed with
  | q :: inner =>
    if (q == '\x27' || q == '\x22' || q == '\x60') && inner.getLast? == some q then
      String.ofList inner.dropLast
    else String.ofList trimmed
  | [] => ""

def imports (file : SourceFile) : List Node := file.root.allOf .importDeclaration

/-- An import, or a name in one, that is restricted to types. -/
def isTypeOnly (node : Node) : Bool :=
  node.children.any fun c => c.grammar == "type" || c.grammar == "typeof"

/-- The imports at the top level that can bind values. -/
def valueImports (file : SourceFile) : List Node :=
  file.imports.filter fun node => !isTypeOnly node

def importSource (file : SourceFile) (node : Node) : Option String :=
  (node.child? "source").map fun source => unquote (file.textOf source)

def importsFrom (file : SourceFile) (module : String) (node : Node) : Bool :=
  match file.importSource node with
  | some source => sameModule source module
  | none => false

/-- The list of names that a value import of a module has. -/
def namedImportsFrom (file : SourceFile) (module : String) : Option Node :=
  (file.valueImports.filter (file.importsFrom module)).findSome? fun node =>
    (node.firstOf .importClause).bind fun clause => clause.firstOf .namedImports

def boundNode (specifier : Node) : Option Node :=
  (specifier.child? "alias").or (specifier.child? "name")

def spells (file : SourceFile) (identifier : String) (node : Option Node) : Bool :=
  match node with
  | some n => file.textOf n == identifier
  | none => false

/-- An import clause introduces a name; names restricted to types count only if asked for. -/
def introduces (file : SourceFile) (withTypes : Bool) (identifier : String) (clause : Node) :
    Bool :=
  clause.children.any fun child =>
    match child.kind with
    | .identifier => file.textOf child == identifier
    | .namespaceImport => file.spells identifier (child.firstOf .identifier)
    | .namedImports =>
      ((child.allOf .importSpecifier).filter fun s => withTypes || !isTypeOnly s).any fun s =>
        file.spells identifier (boundNode s)
    | _ => false

def importIntroduces (file : SourceFile) (withTypes : Bool) (identifier : String) (node : Node) :
    Bool :=
  match node.firstOf .importClause with
  | some clause => file.introduces withTypes identifier clause
  | none => false

end Codemod.SourceFile
