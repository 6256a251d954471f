import Codemod.Path.Map
import Codemod.Source.File

/-!
What is found where a project lies.
-/
namespace Codemod

/-- The files of a project as they are found. -/
structure View where
  /-- The text of a file, none where there is no such file, or why it cannot be read. -/
  read : Path → Except String (Option String)
  /-- Whether there is such a file. -/
  holds : Path → Bool

def View.ofTexts (texts : PathMap String) : View where
  read path := .ok (texts.find? path)
  holds path := texts.contains path

structure Project where
  view : View
  reader : TreeReader

end Codemod
