import Codemod.Path.Basic

/-!
The source languages that can be read, and the file extensions that select them.
-/
namespace Codemod

/-- A language whose sources can be read. JavaScript includes the markup extension. -/
inductive Language where
  | typeScript
  | tsx
  | javaScript
  deriving DecidableEq, Repr

namespace Language

/-- The language of a file extension written in lower case. -/
def ofExtension? : String → Option Language
  | "ts" | "mts" | "cts" => some .typeScript
  | "tsx" => some .tsx
  | "js" | "mjs" | "cjs" | "jsx" => some .javaScript
  | _ => none

/-- The language of a file, chosen by its extension without regard to case. -/
def ofPath? (path : Path) : Option Language :=
  path.extension.bind fun ext => ofExtension? (ext.map Char.toLower)

def displayName : Language → String
  | typeScript => "TypeScript"
  | tsx => "TSX"
  | javaScript => "JavaScript"

end Language

end Codemod
