import Codemod.Path.Codec
import Codemod.Staging.Error
import Codemod.Staging.File
import Codemod.Staging.Splice

/-!
The staging area.

A file is loaded when it is first asked for and stays from then on. Edits go through a buffer and
take effect together when it is committed, and only if the file still has a structure then. An
operation answers a result and the area after it: a failure leaves every file as it was, and can
at most have loaded one.
-/
namespace Codemod

/-- The staging area: the files that were loaded. -/
structure Tree where
  files : PathMap StagedFile

/-- What an operation answers, and the staging area after it. -/
abbrev Tree.Result (α : Type) := Except EditError α × Tree

structure PatchResult where
  target : Path
  applied : Bool
  finalText : String

namespace PatchResult

def toJson (result : PatchResult) : Json :=
  .object [("target", result.target.toJson), ("applied", .bool result.applied),
    ("final_text", .string result.finalText)]

end PatchResult

/-- Edits of a file that are not committed yet. -/
structure Buffer where
  path : Path
  /-- The file before the edits. -/
  file : StagedFile
  /-- The text after the edits. -/
  text : String
  edits : List EditRecord

namespace Buffer

def insert (buffer : Buffer) (offset : Nat) (piece rationale : String) :
    Except EditError Buffer :=
  match Text.insertAt? buffer.text offset piece with
  | some text => .ok { buffer with text, edits := buffer.edits ++ [⟨offset, 0, piece, rationale⟩] }
  | none => .error (.offsetOutside buffer.path offset (Text.size buffer.text))

/-- Puts another text in place of all of it. Only the part that differs is recorded. -/
def replaceAll (buffer : Buffer) (text rationale : String) : Buffer :=
  if text = buffer.text then buffer
  else
    let splice := Splice.between buffer.text text
    let record : EditRecord := ⟨splice.offset, splice.removed, splice.inserted, rationale⟩
    { buffer with text, edits := buffer.edits ++ [record] }

end Buffer

namespace Tree

def empty : Tree := ⟨.empty⟩

/-- The staged file of a path, loaded if need be. -/
def load (project : Project) (tree : Tree) (path : Path) : Result StagedFile :=
  match tree.files.find? path with
  | some file => (.ok file, tree)
  | none =>
    match project.view.read path with
    | .error reason => (.error (.unreadable reason), tree)
    | .ok none => (.error (.plan (.targetMissing (some path))), tree)
    | .ok (some text) =>
      match StagedFile.ofText project.reader path text with
      | .error error => (.error (.source error), tree)
      | .ok file => (.ok file, ⟨tree.files.insert path file⟩)

def holds (project : Project) (tree : Tree) (path : Path) : Bool :=
  tree.files.contains path || project.view.holds path

def text (project : Project) (tree : Tree) (path : Path) : Result String :=
  match tree.load project path with
  | (.ok file, tree) => (.ok file.text, tree)
  | (.error error, tree) => (.error error, tree)

def source (project : Project) (tree : Tree) (path : Path) : Result SourceFile :=
  match tree.load project path with
  | (.ok file, tree) =>
    match file.source with
    | some source => (.ok source, tree)
    | none => (.error (.source (.unsupportedLanguage path)), tree)
  | (.error error, tree) => (.error error, tree)

def edit (project : Project) (tree : Tree) (path : Path) : Result Buffer :=
  match tree.load project path with
  | (.ok file, tree) => (.ok ⟨path, file, file.text, []⟩, tree)
  | (.error error, tree) => (.error error, tree)

def commit (project : Project) (tree : Tree) (buffer : Buffer) : Result PatchResult :=
  if buffer.edits.isEmpty then (.ok ⟨buffer.path, false, buffer.file.text⟩, tree)
  else
    match analyze project.reader buffer.path buffer.text with
    | .error error => (.error (.wouldCorrupt buffer.path error), tree)
    | .ok source =>
      let file : StagedFile := {
        buffer.file with
        text := buffer.text, source, history := buffer.file.history ++ buffer.edits }
      (.ok ⟨buffer.path, true, buffer.text⟩, ⟨tree.files.insert buffer.path file⟩)

def apply (project : Project) (tree : Tree) : EditPlan → Result PatchResult
  | .noOp target _ =>
    match tree.text project target with
    | (.ok text, tree) => (.ok ⟨target, false, text⟩, tree)
    | (.error error, tree) => (.error error, tree)
  | .insert target offset text rationale =>
    match tree.edit project target with
    | (.error error, tree) => (.error error, tree)
    | (.ok buffer, tree) =>
      match buffer.insert offset text rationale with
      | .error error => (.error error, tree)
      | .ok buffer => tree.commit project buffer

/-- The committed edits of a file, oldest first. -/
def history (tree : Tree) (path : Path) : List EditRecord :=
  match tree.files.find? path with
  | some file => file.history
  | none => []

/-- The files whose text is not the one they came with. -/
def changed (tree : Tree) : List (Path × StagedFile) :=
  tree.files.entries.filter fun entry => entry.2.isChanged

def staged (tree : Tree) : List (Path × String) :=
  tree.changed.map fun (path, file) => (path, file.text)

end Tree

end Codemod
