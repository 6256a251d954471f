import Codemod.Chain.Policy
import Codemod.Staging.Summary
import Codemod.Stamp.Instant
import Codemod.Stamp.Uuid

/-!
The report of a run: its steps in order, the count of each class of outcome, and the files that
have changed.
-/
namespace Codemod

structure StepReport where
  step : String
  /-- The file it was about, where one was found. -/
  target : Option Path
  outcome : StepOutcome
  message : String

structure ToolInfo where
  name : String
  version : Option String

structure Summary where
  total : Nat
  applied : Nat
  skipped : Nat
  warned : Nat
  failed : Nat
  deriving DecidableEq

structure RunStamp where
  id : Uuid
  startedAt : Instant
  endedAt : Instant

structure Report where
  schema : String
  tool : Option ToolInfo
  runId : Uuid
  startedAt : Instant
  endedAt : Option Instant
  steps : List StepReport
  /-- The step that stopped the run. -/
  abortedBy : Option String
  files : List FileChange
  summary : Summary

namespace Summary

def empty : Summary := ⟨0, 0, 0, 0, 0⟩

def count (summary : Summary) (outcome : StepOutcome) : Summary :=
  let summary := { summary with total := summary.total + 1 }
  match outcome with
  | .success => { summary with applied := summary.applied + 1 }
  | .alreadyPresent | .missingTarget | .suppressed =>
    { summary with skipped := summary.skipped + 1 }
  | .warned => { summary with warned := summary.warned + 1 }
  | .failed => { summary with failed := summary.failed + 1 }

end Summary

namespace Report

def schemaName : String := "graft.report.v1"

def start (stamp : RunStamp) : Report where
  schema := schemaName
  tool := none
  runId := stamp.id
  startedAt := stamp.startedAt
  endedAt := none
  steps := []
  abortedBy := none
  files := []
  summary := .empty

def push (report : Report) (entry : StepReport) : Report :=
  { report with
    steps := report.steps ++ [entry], summary := report.summary.count entry.outcome }

def isFailure (report : Report) : Bool := report.abortedBy.isSome

/-- What became of the first step of a name. -/
def outcomeOf (report : Report) (step : String) : Option StepOutcome :=
  (report.steps.find? fun entry => entry.step == step).map StepReport.outcome

end Report

end Codemod
