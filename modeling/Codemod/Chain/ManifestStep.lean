import Codemod.Chain.PatchStep
import Codemod.Manifest.Dependencies

/-!
Steps that declare dependencies in a manifest.
-/
namespace Codemod

open Manifest

/-- A step that declares dependencies. -/
structure ManifestStep where
  name : String
  policy : FailurePolicy
  /-- The manifest, which may not be configured. -/
  manifest : Option Path
  dependencies : List Dependency

/-- The dependencies of a manifest, with failures told by its path. -/
def Manifest.declareIn? (path : Path) (text : String) (dependencies : List Dependency) :
    Except StepError (Option String) :=
  match declareAll? text dependencies with
  | .ok text => .ok text
  | .error error => .error (.shape path error.message)

namespace ManifestStep

def names (step : ManifestStep) : String :=
  Text.joinText ", " (step.dependencies.map Dependency.name)

def stageText (project : Project) (path : Path) (text detail : String) (tree : Tree) :
    Except StepError StepOutput × Tree :=
  match tree.edit project path with
  | (.error error, tree) => (.error (.edit error), tree)
  | (.ok buffer, tree) =>
    match tree.commit project (buffer.replaceAll text detail) with
    | (.ok result, tree) => (.ok ⟨path, result.applied, detail⟩, tree)
    | (.error error, tree) => (.error (.edit error), tree)

def run (project : Project) (step : ManifestStep) (tree : Tree) :
    Except StepError StepOutput × Tree :=
  match step.manifest with
  | none => (.error (.missing none), tree)
  | some path =>
    match tree.text project path with
    | (.error error, tree) => (.error (.edit error), tree)
    | (.ok current, tree) =>
      match declareIn? path current step.dependencies with
      | .error error => (.error error, tree)
      | .ok none =>
        (.ok ⟨path, false, "dependencies " ++ step.names ++ " already declared"⟩, tree)
      | .ok (some text) =>
        stageText project path text ("declared dependencies " ++ step.names) tree

def toStep (project : Project) (step : ManifestStep) : Step :=
  ⟨step.name, step.policy, step.run project⟩

end ManifestStep

end Codemod
