import Codemod.Path.Basic
import Codemod.Json.Decode

/-!
The JSON form of paths: their spelling.
-/
namespace Codemod.Path

def toJson (p : Path) : Json := .string p.spelling

def ofJson? (j : Json) : Option Path := j.string?.map Path.mk

end Codemod.Path
