import Codemod.Report.Document
import Codemod.Report.Markdown
import Codemod.Setup.Run

/-!
Writing what a setup comes to.
-/
namespace Codemod

/-- A way to write files, over a state that it changes. A failure says why. -/
structure Writer (σ : Type) where
  writeFile : Path → String → σ → Except String Unit × σ
  makeDirectory : Path → σ → Except String Unit × σ

namespace Writer

variable {σ : Type}

/-- Writes files under a root one after another and counts them, up to the first that cannot be
written. -/
def writeAll (writer : Writer σ) (root : Path) :
    List (Path × String) → Nat → σ → Except String Nat × σ
  | [], count, state => (.ok count, state)
  | (path, text) :: rest, count, state =>
    match writer.writeFile (root.join path) text state with
    | (.ok (), state) => writer.writeAll root rest (count + 1) state
    | (.error reason, state) =>
      (.error ("write staged " ++ path.spelling ++ ": " ++ reason), state)

def writeStaged (writer : Writer σ) (outcome : SetupOutcome) (root : Path) (state : σ) :
    Except String Nat × σ :=
  writer.writeAll root outcome.staged 0 state

/-- Writes files one after another, up to the first that cannot be written. -/
def writeEach (writer : Writer σ) : List (Path × String) → σ → Except String Unit × σ
  | [], state => (.ok (), state)
  | (path, text) :: rest, state =>
    match writer.writeFile path text state with
    | (.ok (), state) => writer.writeEach rest state
    | (.error reason, state) => (.error reason, state)

def artifacts (outcome : SetupOutcome) (dir : Path) : List (Path × String) :=
  [(dir.join ⟨"report.json"⟩, outcome.report.document),
    (dir.join ⟨"report.md"⟩, outcome.report.markdown),
    (dir.join ⟨"patch.diff"⟩, outcome.patch)]

def writeArtifacts (writer : Writer σ) (outcome : SetupOutcome) (dir : Path) (state : σ) :
    Except String Unit × σ :=
  match writer.makeDirectory dir state with
  | (.ok (), state) => writer.writeEach (artifacts outcome dir) state
  | (.error reason, state) => (.error reason, state)

end Writer

end Codemod
