import Codemod.Change.Basic
import Codemod.Text.Quoted

/-!
The text that changes put into source files.
-/
namespace Codemod

def ConfigEntry.line (entry : ConfigEntry) : List Char :=
  "    ".toList ++ Text.propertyKey entry.key ++ [':', ' '] ++ Text.singleQuoted entry.value
    ++ [',', '\n']

/-- A field whose value is an object with the given entries, indented as a member of a top-level
object. -/
def renderField (key : String) (entries : List ConfigEntry) : String :=
  String.ofList (
    "  ".toList ++ Text.propertyKey key ++ [':', ' ', '\x7b', '\n']
      ++ entries.flatMap ConfigEntry.line ++ "  \x7d".toList)

def renderImport (identifier module : String) : String :=
  String.ofList (
    "import \x7b ".toList ++ identifier.toList ++ " \x7d from ".toList
      ++ Text.singleQuoted module ++ [';'])

end Codemod
