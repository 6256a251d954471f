import Codemod.Source.Calls

/-!
The root module of a program: the module that its entry file bootstraps.
-/
namespace Codemod.SourceFile

open Source

/-- A call of a member named `bootstrapModule`. -/
def isBootstrap (file : SourceFile) (node : Node) : Bool :=
  node.isKind .call &&
    match node.child? "function" with
    | some f => f.isKind .memberExpression && file.spells "bootstrapModule" (f.child? "property")
    | none => false

/-- The name that the first bootstrapping call is given first. -/
def bootstrappedName (file : SourceFile) : Option String := do
  let call ← file.root.descendants.find? file.isBootstrap
  let arguments ← call.child? "arguments"
  let first ← arguments.significant.head?
  if first.isKind .identifier then some (file.textOf first) else none

/-- The module that the first import binding a name names. -/
def originOf (file : SourceFile) (name : String) : Option String :=
  file.imports.findSome? fun node =>
    if file.importIntroduces false name node then file.importSource node else none

/-- The file of the root module, next to the entry file and with its extension. Only a module
named by a relative path has one. -/
def rootModule (file : SourceFile) : Option Path := do
  let name ← file.bootstrappedName
  let specifier ← file.originOf name
  if specifier.toList.head? ≠ some '.' then none
  else
    let stem := Path.normalize (file.path.directory.join ⟨stripSourceExtension specifier⟩)
    some ⟨stem.spelling ++ "." ++ file.path.extension.getD "ts"⟩

end Codemod.SourceFile
