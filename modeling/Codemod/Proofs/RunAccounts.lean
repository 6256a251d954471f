import Codemod.Chain.PatchStep
import Codemod.Chain.Run

/-!
What the report of a run says of the run.

A run is the first steps of its chain, up to one that fails. `Report.exists_ending` says how it
ends: either every step ran and none failed, or the last one that ran is the first that failed.
The reports are those of the steps that ran, a sink has got them in the same order, and the
summary counts them.
-/
namespace Codemod

namespace StepError

/-- A step is left out for want of its file or of a name that it needs, and for nothing else. -/
theorem skipsStep_iff {error : StepError} : error.skipsStep = true ↔
    (∃ path, error = .missing path) ∨ ∃ path identifier, error = .unbound path identifier := by
  constructor
  · intro h
    cases error with
    | unbound path identifier => exact .inr ⟨path, identifier, rfl⟩
    | shape => cases h
    | edit error =>
      cases error with
      | plan error =>
        cases error with
        | targetMissing path => exact .inl ⟨path, rfl⟩
        | _ => cases h
      | _ => cases h
  · rintro (⟨path, rfl⟩ | ⟨path, identifier, rfl⟩) <;> rfl

end StepError

@[simp] theorem Step.step_reportOn (step : Step) (answer : Except StepError StepOutput) :
    (step.reportOn answer).step = step.name := by
  cases answer <;> rfl

/-- A step and what it answered. -/
structure Turn where
  step : Step
  answer : Except StepError StepOutput

namespace Turn

def report (turn : Turn) : StepReport := turn.step.reportOn turn.answer

/-- A missing file or name leaves the step out, whatever its policy. -/
theorem outcome_of_skipsStep {turn : Turn} {error : StepError} (h : turn.answer = .error error)
    (hs : error.skipsStep = true) : turn.report.outcome = .missingTarget := by
  simp [report, h, Step.reportOn, Step.failure, hs]

/-- A step fails with any other error under the policy to abort, and only then. -/
theorem outcome_eq_failed_iff {turn : Turn} : turn.report.outcome = .failed ↔
    turn.step.policy = .abort ∧ ∃ error, turn.answer = .error error ∧ error.skipsStep = false := by
  obtain ⟨step, answer⟩ := turn
  cases answer with
  | ok output =>
    have h : (Turn.mk step (.ok output)).report.outcome ≠ .failed := by
      cases ha : output.applied <;> simp [report, Step.reportOn, ha]
    simp [h]
  | error error =>
    cases hs : error.skipsStep with
    | true => simp [report, Step.reportOn, Step.failure, hs]
    | false =>
      cases hp : step.policy <;>
        simp [report, Step.reportOn, Step.failure, hs, hp, FailurePolicy.outcome]

end Turn

namespace Step

def turns : List Step → Tree → List Turn
  | [], _ => []
  | step :: rest, tree => ⟨step, (step.run tree).1⟩ :: turns rest (step.run tree).2

/-- The staging area after several steps. -/
def treeAfter : List Step → Tree → Tree
  | [], tree => tree
  | step :: rest, tree => treeAfter rest (step.run tree).2

@[simp] theorem turns_append (first rest : List Step) (tree : Tree) :
    turns (first ++ rest) tree = turns first tree ++ turns rest (treeAfter first tree) := by
  induction first generalizing tree with
  | nil => rfl
  | cons step first ih => simp [turns, treeAfter, ih]

theorem treeAfter_append (first rest : List Step) (tree : Tree) :
    treeAfter (first ++ rest) tree = treeAfter rest (treeAfter first tree) := by
  induction first generalizing tree with
  | nil => rfl
  | cons step first ih => exact ih (step.run tree).2

def reports (steps : List Step) (tree : Tree) : List StepReport :=
  (turns steps tree).map Turn.report

@[simp] theorem reports_append (first rest : List Step) (tree : Tree) :
    reports (first ++ rest) tree = reports first tree ++ reports rest (treeAfter first tree) := by
  simp [reports]

theorem reports_singleton (step : Step) (tree : Tree) :
    reports [step] tree = [step.reportOn (step.run tree).1] := rfl

/-- A report is one on the step at its place, in the state that the steps before that have left. -/
theorem getElem?_reports (steps : List Step) (tree : Tree) (n : Nat) :
    (reports steps tree)[n]? =
      steps[n]?.map fun step => step.reportOn (step.run (treeAfter (steps.take n) tree)).1 := by
  induction steps generalizing tree n with
  | nil => rfl
  | cons step rest ih =>
    cases n with
    | zero => rfl
    | succ n => exact ih (step.run tree).2 n

/-- How a run ends, by the steps that ran, the steps that are left, and who stopped it. -/
inductive Ending (tree : Tree) : List Step → List Step → Option String → Prop
  /-- Every step ran and none failed. -/
  | complete {ran : List Step} : (∀ entry ∈ reports ran tree, entry.outcome ≠ .failed) →
    Ending tree ran [] none
  /-- A step failed, the first to do so. -/
  | stopped {front : List Step} {step : Step} {rest : List Step} :
    (∀ entry ∈ reports front tree, entry.outcome ≠ .failed) →
    (step.reportOn (step.run (treeAfter front tree)).1).outcome = .failed →
    Ending tree (front ++ [step]) rest (some step.name)

namespace Ending

variable {tree : Tree} {ran rest : List Step} {stopper : Option String}

/-- A step that does not fail comes in front. -/
theorem cons {step : Step} (h : (step.reportOn (step.run tree).1).outcome ≠ .failed)
    (he : Ending (step.run tree).2 ran rest stopper) : Ending tree (step :: ran) rest stopper := by
  cases he with
  | complete hall => exact .complete (List.forall_mem_cons.2 ⟨h, hall⟩)
  | @stopped front last rest hall hlast =>
    have hfront : ∀ entry ∈ reports (step :: front) tree, entry.outcome ≠ .failed :=
      List.forall_mem_cons.2 ⟨h, hall⟩
    exact .stopped hfront hlast

/-- No step ran after one that failed. -/
theorem going (h : Ending tree ran rest stopper) :
    ∀ entry ∈ (reports ran tree).dropLast, entry.outcome ≠ .failed := by
  cases h with
  | complete hall => exact fun entry hentry => hall entry (List.dropLast_subset _ hentry)
  | stopped hall _ =>
    rw [reports_append, reports_singleton, List.dropLast_concat]
    exact hall

/-- Only a failure leaves steps aside. -/
theorem halted (h : Ending tree ran rest stopper) (hrest : rest ≠ []) :
    ∃ entry, (reports ran tree).getLast? = some entry ∧ entry.outcome = .failed := by
  cases h with
  | complete => exact absurd rfl hrest
  | stopped _ hlast => exact ⟨_, by simp [reports_singleton], hlast⟩

/-- The step that stopped the run is the last one, if that failed. -/
theorem stopper_iff (h : Ending tree ran rest stopper) (name : String) : stopper = some name ↔
    ∃ entry, (reports ran tree).getLast? = some entry ∧ entry.outcome = .failed ∧
      entry.step = name := by
  cases h with
  | complete hall =>
    refine ⟨nofun, ?_⟩
    rintro ⟨entry, hentry, hf, -⟩
    exact absurd hf (hall entry (List.mem_of_getLast? hentry))
  | @stopped front step _ _ hlast =>
    rw [reports_append, reports_singleton, List.getLast?_concat]
    constructor
    · intro hname
      exact ⟨_, rfl, hlast, by simpa using hname⟩
    · rintro ⟨entry, hentry, -, rfl⟩
      obtain rfl := Option.some.inj hentry
      simp

/-- One step failed if the run was stopped, and none otherwise. -/
theorem count_failed (h : Ending tree ran rest stopper) :
    ((reports ran tree).map StepReport.outcome).count .failed =
      if stopper.isSome then 1 else 0 := by
  have hnone : ∀ {entries : List StepReport}, (∀ entry ∈ entries, entry.outcome ≠ .failed) →
      (entries.map StepReport.outcome).count .failed = 0 := by
    intro entries hall
    rw [List.count_eq_zero, List.mem_map]
    rintro ⟨entry, hentry, hf⟩
    exact hall entry hentry hf
  cases h with
  | complete hall => exact hnone hall
  | stopped hall hlast =>
    rw [reports_append, reports_singleton, List.map_append, List.count_append, hnone hall]
    simp [hlast]

end Ending

end Step

namespace StepOutcome

/-- The outcomes of steps that were left out in one way or another. -/
def isSkip : StepOutcome → Bool
  | alreadyPresent | missingTarget | suppressed => true
  | _ => false

theorem isFailure_iff {outcome : StepOutcome} : outcome.isFailure = true ↔ outcome = .failed := by
  cases outcome <;> simp [isFailure]

/-- Every outcome is in one of four classes. -/
theorem length_eq_classes (outcomes : List StepOutcome) : outcomes.length =
    outcomes.count .success + outcomes.countP isSkip + outcomes.count .warned
      + outcomes.count .failed := by
  induction outcomes with
  | nil => rfl
  | cons outcome rest ih =>
    cases outcome <;> simp [isSkip, List.countP_cons, ih] <;> omega

end StepOutcome

/-- A summary counts the outcomes of each class. -/
theorem Summary.foldl_count (outcomes : List StepOutcome) (summary : Summary) :
    outcomes.foldl count summary = {
      total := summary.total + outcomes.length
      applied := summary.applied + outcomes.count .success
      skipped := summary.skipped + outcomes.countP StepOutcome.isSkip
      warned := summary.warned + outcomes.count .warned
      failed := summary.failed + outcomes.count .failed } := by
  induction outcomes generalizing summary with
  | nil => rfl
  | cons outcome rest ih =>
    rw [List.foldl_cons, ih]
    cases outcome <;> simp [count, StepOutcome.isSkip, List.countP_cons] <;> omega

namespace Report

open Step (turns treeAfter reports Ending)

variable {σ : Type}

theorem foldl_push (entries : List StepReport) (report : Report) :
    entries.foldl push report = { report with
      steps := report.steps ++ entries
      summary := (entries.map StepReport.outcome).foldl Summary.count report.summary } := by
  induction entries generalizing report with
  | nil => simp
  | cons entry rest ih => simp [ih, push]

/-- A run comes to the reports of the steps that ran, and it ends in one of two ways. -/
theorem exists_ending (sink : Sink σ) (steps : List Step) (report : Report) (tree : Tree)
    (state : σ) (h : report.abortedBy = none) :
    ∃ ran rest stopper, steps = ran ++ rest ∧ Ending tree ran rest stopper ∧
      runSteps sink steps report tree state =
        ({ (reports ran tree).foldl push report with abortedBy := stopper }, treeAfter ran tree,
          (reports ran tree).foldl sink state) := by
  induction steps generalizing report tree state with
  | nil =>
    refine ⟨[], [], none, rfl, .complete (by simp [reports, turns]), ?_⟩
    simp [runSteps, reports, turns, treeAfter, ← h]
  | cons step rest ih =>
    by_cases hf : (step.reportOn (step.run tree).1).outcome = .failed
    · have hfront : ∀ entry ∈ reports [] tree, entry.outcome ≠ .failed := by
        simp [reports, turns]
      refine ⟨[step], rest, some step.name, rfl, .stopped hfront hf, ?_⟩
      simp only [runSteps, StepOutcome.isFailure_iff.2 hf, if_true]
      rfl
    · have hgo : (step.reportOn (step.run tree).1).outcome.isFailure = false := by
        rw [Bool.eq_false_iff, ne_eq, StepOutcome.isFailure_iff]
        exact hf
      obtain ⟨ran, left, stopper, hs, he, hr⟩ :=
        ih (report.push (step.reportOn (step.run tree).1)) (step.run tree).2
          (sink state (step.reportOn (step.run tree).1)) h
      refine ⟨step :: ran, left, stopper, by rw [hs]; rfl, he.cons hf, ?_⟩
      simp only [runSteps, hgo, Bool.false_eq_true, if_false, hr]
      rfl

/-- The result of a run accounts for the steps that ran and those that are left aside. -/
structure Accounts (sink : Sink σ) (ran rest : List Step) (tree : Tree) (state : σ)
    (result : Report × Tree × σ) : Prop where
  /-- The reports are those of the steps that ran, in their order. -/
  steps : result.1.steps = reports ran tree
  staged : result.2.1 = treeAfter ran tree
  /-- The sink has got the same reports in the same order. -/
  noticed : result.2.2 = result.1.steps.foldl sink state
  /-- No step ran after one that failed. -/
  going : ∀ entry ∈ result.1.steps.dropLast, entry.outcome ≠ .failed
  /-- Only a failure leaves steps aside. -/
  halted : rest ≠ [] →
    ∃ entry, result.1.steps.getLast? = some entry ∧ entry.outcome = .failed
  /-- A step fails under the policy to abort, by an error that is no missing file or name. -/
  failed : ∀ turn ∈ turns ran tree, turn.report.outcome = .failed ↔
    turn.step.policy = .abort ∧ ∃ error, turn.answer = .error error ∧
      ¬ ((∃ path, error = .missing path) ∨ ∃ path identifier, error = .unbound path identifier)
  /-- A missing file or name leaves a step out under every policy. -/
  leftOut : ∀ turn ∈ turns ran tree, ∀ error, turn.answer = .error error →
    ((∃ path, error = .missing path) ∨ ∃ path identifier, error = .unbound path identifier) →
    turn.report.outcome = .missingTarget
  abortedBy : ∀ name, result.1.abortedBy = some name ↔
    ∃ entry, result.1.steps.getLast? = some entry ∧ entry.outcome = .failed ∧ entry.step = name
  /-- Each counter is the number of the reports of its class. -/
  counted : result.1.summary = {
    total := result.1.steps.length
    applied := (result.1.steps.map StepReport.outcome).count .success
    skipped := (result.1.steps.map StepReport.outcome).countP StepOutcome.isSkip
    warned := (result.1.steps.map StepReport.outcome).count .warned
    failed := (result.1.steps.map StepReport.outcome).count .failed }
  /-- Each report is counted in one class. -/
  total : result.1.summary.total = result.1.summary.applied + result.1.summary.skipped
    + result.1.summary.warned + result.1.summary.failed
  failures : result.1.summary.failed = if result.1.abortedBy.isSome then 1 else 0

/-- A run with a known ending accounts for its steps. -/
theorem accounts_of_ending {sink : Sink σ} {ran rest : List Step} {tree : Tree} {state : σ}
    {stopper : Option String} {result : Report × Tree × σ} (he : Ending tree ran rest stopper)
    (hsteps : result.1.steps = reports ran tree) (habort : result.1.abortedBy = stopper)
    (hsummary : result.1.summary =
      ((reports ran tree).map StepReport.outcome).foldl Summary.count .empty)
    (hstaged : result.2.1 = treeAfter ran tree)
    (hnoticed : result.2.2 = (reports ran tree).foldl sink state) :
    Accounts sink ran rest tree state result := by
  simp only [Summary.foldl_count, Summary.empty, Nat.zero_add, ← hsteps] at hsummary
  refine {
    steps := hsteps
    staged := hstaged
    noticed := by rw [hnoticed, hsteps]
    going := by rw [hsteps]; exact he.going
    halted := by rw [hsteps]; exact he.halted
    failed := ?_
    leftOut := ?_
    abortedBy := by rw [habort, hsteps]; exact he.stopper_iff
    counted := by simpa using hsummary
    total := ?_
    failures := ?_ }
  · intro turn _
    simp only [Turn.outcome_eq_failed_iff, ← StepError.skipsStep_iff, Bool.not_eq_true]
  · intro turn _ error ha hskip
    exact Turn.outcome_of_skipsStep ha (StepError.skipsStep_iff.2 hskip)
  · rw [hsummary]
    exact StepOutcome.length_eq_classes _
  · rw [hsummary, habort, hsteps]
    exact he.count_failed

/-- Every run is that of a first part of its steps, and accounts for it. -/
theorem accounts_ofRun (sink : Sink σ) (stamp : RunStamp) (steps : List Step) (tree : Tree)
    (state : σ) : ∃ ran rest, steps = ran ++ rest ∧
      Accounts sink ran rest tree state (ofRun sink stamp steps tree state) := by
  obtain ⟨ran, rest, stopper, hs, he, hr⟩ :=
    exists_ending sink steps (start stamp) tree state rfl
  rw [foldl_push] at hr
  refine ⟨ran, rest, hs, accounts_of_ending he ?_ ?_ ?_ ?_ ?_⟩ <;> simp only [ofRun, hr]
  · exact List.nil_append _
  · rfl

end Report

end Codemod
