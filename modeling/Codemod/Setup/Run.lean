import Codemod.Chain.Run
import Codemod.Setup.Recipe

/-!
A setup from the files of a project to the texts it stages. Nothing is written.
-/
namespace Codemod

structure SetupOutcome where
  report : Report
  patch : String
  /-- The changed texts, in the order of their paths. -/
  staged : List (Path × String)

inductive SetupError where
  /-- A step stopped the run. -/
  | aborted (step : String)
  /-- Something outside the run failed. -/
  | internal (message : String)

namespace SetupError

def message : SetupError → String
  | aborted step => "setup aborted by step `" ++ step ++ "`"
  | internal message => message

def exitCode : SetupError → Nat
  | aborted _ => 2
  | internal _ => 1

end SetupError

namespace SetupOutcome

/-- A run that was stopped is no success. -/
def check (outcome : SetupOutcome) : Except SetupError Unit :=
  match outcome.report.abortedBy with
  | some step => .error (.aborted step)
  | none => .ok ()

def ofRun {σ : Type} (sink : Sink σ) (stamp : RunStamp) (tool : ToolInfo) (project : Project)
    (settings : SetupSettings) (state : σ) : SetupOutcome × σ :=
  let steps := (Recipe.firebase settings.project settings.firebase settings.versions).map
    (RecipeStep.toStep project)
  let (report, tree, state) := Report.ofRun sink stamp steps Tree.empty state
  (⟨{ report with tool := some tool }, tree.patch, tree.staged⟩, state)

end SetupOutcome

end Codemod
