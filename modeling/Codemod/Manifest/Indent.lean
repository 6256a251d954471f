import Codemod.Text.Blank
import Codemod.Text.Split

/-!
The indentation of a text.
-/
namespace Codemod.Manifest

def indentOf? (line : List Char) : Option (List Char) :=
  if line.all Text.isBlank then none
  else
    match line.takeWhile Text.isIndent with
    | [] => none
    | indent => some indent

/-- The indentation of the first line that has one, or two spaces. -/
def detectIndent (text : String) : String :=
  String.ofList (((Text.split '\n' text.toList).findSome? indentOf?).getD [' ', ' '])

end Codemod.Manifest
