import Codemod.Chain.Report

/-!
One line about a step, for people who watch a run.
-/
namespace Codemod

def StepOutcome.marker : StepOutcome → String
  | success => "[ok]"
  | alreadyPresent | missingTarget => "[skip]"
  | suppressed => "[quiet]"
  | warned => "[warn]"
  | failed => "[fail]"

/-- The mark of a step, its name, its message and the file it was about. -/
def StepReport.statusLine (entry : StepReport) : String :=
  let target := match entry.target with
    | some path => " (" ++ path.spelling ++ ")"
    | none => ""
  entry.outcome.marker ++ " " ++ entry.step ++ ": " ++ entry.message ++ target

end Codemod
