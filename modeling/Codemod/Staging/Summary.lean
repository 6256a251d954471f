import Codemod.Staging.Tree
import Codemod.Digest.Sha256
import Codemod.Diff.Unified

/-!
What a staging area amounts to: the list of its changed files and the patch between the texts they
came with and those they have.
-/
namespace Codemod

/-- A changed file, told by digests and lengths. -/
structure FileChange where
  path : Path
  digestBefore : String
  digestAfter : String
  sizeBefore : Nat
  sizeAfter : Nat
  /-- The number of edits. -/
  edits : Nat
  deriving DecidableEq

namespace FileChange

def ofStaged (path : Path) (file : StagedFile) : FileChange where
  path := path
  digestBefore := Digest.sha256Text file.loaded
  digestAfter := Digest.sha256Text file.text
  sizeBefore := Text.size file.loaded
  sizeAfter := Text.size file.text
  edits := file.history.length

def toJson (change : FileChange) : Json :=
  .object [("path", change.path.toJson), ("before_sha256", .string change.digestBefore),
    ("after_sha256", .string change.digestAfter), ("before_bytes", .ofNat change.sizeBefore),
    ("after_bytes", .ofNat change.sizeAfter), ("edits", .ofNat change.edits)]

def ofJson? (j : Json) : Option FileChange := do
  let fields ← j.record?
    ["path", "before_sha256", "after_sha256", "before_bytes", "after_bytes", "edits"]
  return ⟨← Json.field? fields "path" Path.ofJson?,
    ← Json.field? fields "before_sha256" Json.string?,
    ← Json.field? fields "after_sha256" Json.string?,
    ← Json.field? fields "before_bytes" Json.nat?,
    ← Json.field? fields "after_bytes" Json.nat?, ← Json.field? fields "edits" Json.nat?⟩

end FileChange

def StagedFile.patch (path : Path) (file : StagedFile) : String :=
  let name := path.spelling
  "diff --git a/" ++ name ++ " b/" ++ name ++ "\n--- a/" ++ name ++ "\n+++ b/" ++ name ++ "\n"
    ++ Diff.unified file.loaded file.text

namespace Tree

def changes (tree : Tree) : List FileChange :=
  tree.changed.map fun (path, file) => .ofStaged path file

def patch (tree : Tree) : String :=
  String.join (tree.changed.map fun (path, file) => file.patch path)

end Tree

end Codemod
