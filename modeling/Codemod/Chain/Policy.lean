import Codemod.Json.Decode

/-!
What a failing step means for a run, and what became of each step.
-/
namespace Codemod

/-- What happens when a step fails. -/
inductive FailurePolicy where
  /-- The run stops. -/
  | abort
  /-- The failure is shown and the run goes on. -/
  | warn
  /-- The failure is noted and the run goes on. -/
  | skip
  deriving DecidableEq, Repr, Inhabited

namespace FailurePolicy

def code : FailurePolicy → String
  | abort => "abort"
  | warn => "warn_and_continue"
  | skip => "skip_silently"

def ofCode? : String → Option FailurePolicy
  | "abort" => some abort
  | "warn_and_continue" => some warn
  | "skip_silently" => some skip
  | _ => none

@[simp] theorem ofCode?_code (policy : FailurePolicy) : ofCode? policy.code = some policy := by
  cases policy <;> rfl

def label : FailurePolicy → String
  | abort => "abort"
  | warn => "warn"
  | skip => "skip"

def toJson (policy : FailurePolicy) : Json := .string policy.code

def ofJson? (j : Json) : Option FailurePolicy := j.choice?.bind ofCode?

end FailurePolicy

/-- What became of a step. -/
inductive StepOutcome where
  | success
  | alreadyPresent
  | missingTarget
  /-- It failed and the run went on with a warning. -/
  | warned
  /-- It failed and the run went on. -/
  | suppressed
  /-- It failed and the run stopped. -/
  | failed
  deriving DecidableEq, Repr, Inhabited

namespace StepOutcome

/-- The run stops here. -/
def isFailure : StepOutcome → Bool
  | failed => true
  | _ => false

def label : StepOutcome → String
  | success => "success"
  | alreadyPresent => "already present"
  | missingTarget => "missing target"
  | warned => "warned"
  | suppressed => "suppressed"
  | failed => "failed"

def code : StepOutcome → String
  | success => "success"
  | alreadyPresent => "skipped_already_present"
  | missingTarget => "skipped_missing_target"
  | warned => "warned"
  | suppressed => "suppressed"
  | failed => "failed"

def ofCode? : String → Option StepOutcome
  | "success" => some success
  | "skipped_already_present" => some alreadyPresent
  | "skipped_missing_target" => some missingTarget
  | "warned" => some warned
  | "suppressed" => some suppressed
  | "failed" => some failed
  | _ => none

@[simp] theorem ofCode?_code (outcome : StepOutcome) : ofCode? outcome.code = some outcome := by
  cases outcome <;> rfl

def toJson (outcome : StepOutcome) : Json := .string outcome.code

def ofJson? (j : Json) : Option StepOutcome := j.choice?.bind ofCode?

end StepOutcome

def FailurePolicy.outcome : FailurePolicy → StepOutcome
  | abort => .failed
  | warn => .warned
  | skip => .suppressed

end Codemod
