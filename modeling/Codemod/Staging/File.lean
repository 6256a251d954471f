import Codemod.Staging.Record
import Codemod.Staging.View

/-!
A staged file: the text it came with, the text it has now, and the edits between the two.
-/
namespace Codemod

/-- The structure of a text: its tree if the path is that of a source file. A JSON file has to be
well formed and any other file is taken as it is. -/
def analyze (reader : TreeReader) (path : Path) (text : String) :
    Except SourceError (Option SourceFile) :=
  match Language.ofPath? path with
  | some language => (SourceFile.readAs reader path text language).map some
  | none =>
    if path.extension = some "json" then
      match Json.read text with
      | .ok _ => .ok none
      | .error fault => .error (.malformedData path fault)
    else .ok none

structure StagedFile where
  /-- The text it was loaded with. -/
  loaded : String
  /-- The text it has now. -/
  text : String
  /-- The tree of that text, for a source file. -/
  source : Option SourceFile
  /-- The edits that were committed, oldest first. -/
  history : List EditRecord

namespace StagedFile

def ofText (reader : TreeReader) (path : Path) (text : String) : Except SourceError StagedFile :=
  (analyze reader path text).map fun source => ⟨text, text, source, []⟩

def isChanged (file : StagedFile) : Bool := file.loaded != file.text

end StagedFile

end Codemod
