import Codemod.Chain.Report

/-!
Steps of a run.
-/
namespace Codemod

inductive StepError where
  | edit (error : EditError)
  /-- The file is not of the shape that the step needs. -/
  | shape (path : Path) (reason : String)
  /-- A name that the change needs is not bound in the file. -/
  | unbound (path : Path) (identifier : String)

namespace StepError

def message : StepError → String
  | edit error => error.message
  | shape path reason => path.spelling ++ ": " ++ reason
  | unbound path identifier => path.spelling ++ ": `" ++ identifier ++ "` is not bound here"

/-- The step has nothing to work on and is left out, whatever its policy. -/
def skipsStep : StepError → Bool
  | edit error => error.isTargetMissing
  | shape .. => false
  | unbound .. => true

end StepError

structure StepOutput where
  target : Path
  applied : Bool
  detail : String

/-- A step: a name, a policy and an action on the staging area. -/
structure Step where
  name : String
  policy : FailurePolicy
  run : Tree → Except StepError StepOutput × Tree

namespace Step

def failure (step : Step) (error : StepError) : StepOutcome :=
  if error.skipsStep then .missingTarget else step.policy.outcome

def reportOn (step : Step) : Except StepError StepOutput → StepReport
  | .ok output => {
      step := step.name
      target := some output.target
      outcome := if output.applied then .success else .alreadyPresent
      message := output.detail }
  | .error error => {
      step := step.name
      target := none
      outcome := step.failure error
      message := error.message }

end Step

end Codemod
