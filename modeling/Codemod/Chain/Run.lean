import Codemod.Chain.Step

/-!
Running steps in a row.

The steps run in order, and a step that fails under the policy to abort is the last one. Each
report goes to a sink as soon as there is one.
-/
namespace Codemod

/-- Takes notice of the reports of a run, one after another. -/
abbrev Sink (σ : Type) := σ → StepReport → σ

namespace Report

def runSteps {σ : Type} (sink : Sink σ) : List Step → Report → Tree → σ → Report × Tree × σ
  | [], report, tree, state => (report, tree, state)
  | step :: rest, report, tree, state =>
    let (answer, tree) := step.run tree
    let entry := step.reportOn answer
    let report := report.push entry
    let state := sink state entry
    if entry.outcome.isFailure then ({ report with abortedBy := some step.name }, tree, state)
    else runSteps sink rest report tree state

/-- Runs steps from the beginning and reports on them and on the files that have changed then. -/
def ofRun {σ : Type} (sink : Sink σ) (stamp : RunStamp) (steps : List Step) (tree : Tree)
    (state : σ) : Report × Tree × σ :=
  let (report, tree, state) := runSteps sink steps (start stamp) tree state
  ({ report with files := tree.changes, endedAt := some stamp.endedAt }, tree, state)

end Report

end Codemod
