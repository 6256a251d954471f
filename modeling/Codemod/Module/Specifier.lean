import Codemod.Path.Normal

/-!
Module specifiers.

A specifier names a module by a path without the extension of its source file. `specifierTo`
writes the way from one file to another; `sameModule` compares specifiers without regard to an
extension.
-/
namespace Codemod

/-- The extensions of source files, in the order in which they are tried. -/
def sourceExtensions : List String :=
  [".ts", ".tsx", ".mts", ".cts", ".js", ".jsx", ".mjs", ".cjs"]

/-- A specifier without the extension of a source file at its end. -/
def stripSourceExtension (specifier : String) : String :=
  (sourceExtensions.findSome? fun ext => Text.dropTail? ext specifier).getD specifier

/-- Specifiers of the same module. -/
def sameModule (a b : String) : Bool := stripSourceExtension a == stripSourceExtension b

/-- Two lists without what they have in common at their front. -/
def dropCommon {α : Type} [BEq α] : List α → List α → List α × List α
  | a :: as, b :: bs => if a == b then dropCommon as bs else (a :: as, b :: bs)
  | as, bs => (as, bs)

/-- The specifier by which one file imports another. -/
def specifierTo (origin target : Path) : String :=
  let here := (Path.normalize origin.directory).components
  let there := (Path.normalize target).components
  let (up, down) := dropCommon here there
  let steps := up.map (fun _ => "..") ++ down.map Path.Component.text
  let joined := stripSourceExtension (Text.joinText "/" steps)
  if (Text.dropLead? "../".toList joined.toList).isSome then joined else "./" ++ joined

end Codemod
