import Codemod.Chain.Step
import Codemod.Module.Root
import Codemod.Module.Specifier

/-!
Steps that bring a change into a source file.

The file and the change may depend on what is staged: the file can be the root module of a program
and the change an import of a file.
-/
namespace Codemod

/-- The file that a step is about. -/
inductive TargetFile where
  /-- A given file, which may not be configured. -/
  | file (path : Option Path)
  /-- The module that the program of an entry file starts from, or the entry file itself. -/
  | rootModuleOf (main : Path)

inductive ChangeSpec where
  | fixed (change : Change)
  /-- The import of a name from a file, which may not be configured. -/
  | importFrom (identifier : String) (file : Option Path)

def StepError.missing (path : Option Path) : StepError := .edit (.plan (.targetMissing path))

def TargetFile.resolve (project : Project) (tree : Tree) :
    TargetFile → Except StepError Path × Tree
  | file (some path) => (.ok path, tree)
  | file none => (.error (.missing none), tree)
  | rootModuleOf main =>
    match tree.source project main with
    | (.ok source, tree) => (.ok (source.rootModule.getD main), tree)
    | (.error error, tree) => (.error (.edit error), tree)

def ChangeSpec.resolve (project : Project) (tree : Tree) (target : Path) :
    ChangeSpec → Except StepError Change
  | fixed change => .ok change
  | importFrom _ none => .error (.missing none)
  | importFrom identifier (some file) =>
    if tree.holds project file then .ok (.insertImport identifier (specifierTo target file))
    else .error (.missing (some file))

/-- A step that brings a change into a source file. -/
structure PatchStep where
  name : String
  policy : FailurePolicy
  target : TargetFile
  change : ChangeSpec
  /-- A name that has to be bound in the file before the change is made. -/
  requires : Option String

namespace PatchStep

/-- The name that a file lacks for the change. -/
def lacking (step : PatchStep) (source : SourceFile) (change : Change) : Option String :=
  step.requires.filter fun identifier =>
    !source.isPresent change && !source.bindsValue identifier

def planFor (step : PatchStep) (target : Path) (source : SourceFile) (change : Change) :
    Except StepError EditPlan :=
  match step.lacking source change with
  | some identifier => .error (.unbound target identifier)
  | none =>
    match source.plan change with
    | .ok plan => .ok plan
    | .error error => .error (.edit (.plan error))

def patch (project : Project) (step : PatchStep) (target : Path) (change : Change)
    (tree : Tree) : Except StepError StepOutput × Tree :=
  match tree.source project target with
  | (.error error, tree) => (.error (.edit error), tree)
  | (.ok source, tree) =>
    match step.planFor target source change with
    | .error error => (.error error, tree)
    | .ok plan =>
      match tree.apply project plan with
      | (.ok result, tree) => (.ok ⟨target, result.applied, plan.rationale⟩, tree)
      | (.error error, tree) => (.error (.edit error), tree)

def run (project : Project) (step : PatchStep) (tree : Tree) :
    Except StepError StepOutput × Tree :=
  match step.target.resolve project tree with
  | (.error error, tree) => (.error error, tree)
  | (.ok target, tree) =>
    match step.change.resolve project tree target with
    | .error error => (.error error, tree)
    | .ok change => step.patch project target change tree

def toStep (project : Project) (step : PatchStep) : Step :=
  ⟨step.name, step.policy, step.run project⟩

end PatchStep

end Codemod
