import Codemod.Proofs.PathOrder
import Codemod.Proofs.StepEffects
import Codemod.Setup.Run

/-!
Running a recipe, and running it once more.

A run that no step stops carries out the effects of its steps one after another. What it stages,
put into the texts the project came with, gives the texts it ended with. So a second run begins
where the first one ended, and it changes nothing exactly if every step rests there.
-/
namespace Codemod

namespace Texts

def afterAll (reader : TreeReader) (texts : Texts) (steps : List RecipeStep) : Texts :=
  steps.foldl (fun texts step => (step.effect reader texts).after texts) texts

end Texts

namespace RecipeStep

/-- How a step is reported, by the texts. -/
def outcome (reader : TreeReader) (texts : Texts) (step : RecipeStep) : StepOutcome :=
  (step.effect reader texts).outcome step.policy

/-- A step that neither changes anything nor stops the run. -/
def Rests (reader : TreeReader) (texts : Texts) (step : RecipeStep) : Prop :=
  step.outcome reader texts ≠ .success ∧ step.outcome reader texts ≠ .failed

/-- No step stops a run. -/
def Complete (reader : TreeReader) : List RecipeStep → Texts → Prop
  | [], _ => True
  | step :: rest, texts =>
    step.outcome reader texts ≠ .failed ∧ Complete reader rest ((step.effect reader texts).after texts)

theorem isWrite_eq_false_of_rests {reader : TreeReader} {texts : Texts} {step : RecipeStep}
    (h : step.Rests reader texts) : (step.effect reader texts).isWrite = false := by
  cases he : step.effect reader texts with
  | write path text =>
    have := h.1
    simp [outcome, he, Effect.outcome] at this
  | present | missing | fails => rfl

end RecipeStep

namespace Report

variable {σ : Type} {reader : TreeReader} (base : PathMap String) (sink : Sink σ)

theorem isFailure_eq_false_iff {outcome : StepOutcome} :
    outcome.isFailure = false ↔ outcome ≠ .failed := by
  cases outcome <;> simp [StepOutcome.isFailure]

/-- A run that no step stops carries out the effects of its steps. -/
theorem runSteps_complete {steps : List RecipeStep} (report : Report) {tree : Tree} (state : σ)
    (h : tree.Fresh reader) (hr : report.abortedBy = none)
    (hn : (runSteps sink (steps.map (RecipeStep.toStep (.ofTexts reader base))) report tree
      state).1.abortedBy = none) :
    let last := (runSteps sink (steps.map (RecipeStep.toStep (.ofTexts reader base))) report tree
      state).2.1
    RecipeStep.Complete reader steps (tree.texts base) ∧
      last.texts base = (tree.texts base).afterAll reader steps ∧
      Tree.Moves (.ofTexts reader base) tree last := by
  induction steps generalizing report tree state with
  | nil => exact ⟨trivial, rfl, .refl tree⟩
  | cons step rest ih =>
    have hruns := step.runs base h
    have hout := Effect.outcome_of_answers (step.toStep (.ofTexts reader base)) hruns.answers
    rw [RecipeStep.toStep_policy] at hout
    simp only [List.map_cons, runSteps] at hn ⊢
    by_cases hf : (step.outcome reader (tree.texts base)).isFailure
    · rw [RecipeStep.outcome, ← hout] at hf
      simp [hf] at hn
    · have hf' := hf
      rw [RecipeStep.outcome, ← hout] at hf'
      simp only [hf', if_false, Bool.false_eq_true] at hn ⊢
      obtain ⟨hc, ht, hm⟩ := ih _ _ hruns.fresh (by simpa [push] using hr) hn
      rw [hruns.texts] at hc ht
      refine ⟨⟨?_, hc⟩, ht, hruns.moves.trans hm⟩
      exact isFailure_eq_false_iff.1 (by simpa using hf)

/-- Reports are only ever added. -/
theorem prefix_runSteps (sink : Sink σ) (steps : List Step) (report : Report) (tree : Tree)
    (state : σ) : report.steps <+: (runSteps sink steps report tree state).1.steps := by
  induction steps generalizing report tree state with
  | nil => exact List.prefix_refl _
  | cons step rest ih =>
    have hpush : report.steps <+: (report.push (step.reportOn (step.run tree).1)).steps :=
      List.prefix_append ..
    simp only [runSteps]
    split
    · exact hpush
    · exact hpush.trans (ih ..)

/-- A step that left no trace in the report. -/
def Silent (entry : StepReport) : Prop := entry.outcome ≠ .success ∧ entry.outcome ≠ .failed

/-- Steps that rest leave everything as it was. -/
theorem runSteps_of_rests {steps : List RecipeStep} (report : Report) {tree : Tree} (state : σ)
    (h : tree.Fresh reader) (hs : ∀ step ∈ steps, step.Rests reader (tree.texts base))
    (hq : ∀ entry ∈ report.steps, Silent entry) :
    let result := runSteps sink (steps.map (RecipeStep.toStep (.ofTexts reader base))) report tree
      state
    result.2.1.changed = tree.changed ∧ ∀ entry ∈ result.1.steps, Silent entry := by
  induction steps generalizing report tree state with
  | nil => exact ⟨rfl, hq⟩
  | cons step rest ih =>
    obtain ⟨hstep, hrest⟩ := List.forall_mem_cons.1 hs
    have hruns := step.runs base h
    have hout := Effect.outcome_of_answers (step.toStep (.ofTexts reader base)) hruns.answers
    rw [RecipeStep.toStep_policy, ← RecipeStep.outcome] at hout
    have hw := RecipeStep.isWrite_eq_false_of_rests hstep
    have htexts := hruns.texts
    rw [Effect.after_of_not_write hw] at htexts
    have hf : ((step.toStep (.ofTexts reader base)).reportOn
        ((step.toStep (.ofTexts reader base)).run tree).1).outcome.isFailure = false := by
      rw [hout, isFailure_eq_false_iff]
      exact hstep.2
    simp only [List.map_cons, runSteps, hf, Bool.false_eq_true, if_false]
    rw [← hruns.changed hw]
    refine ih _ _ hruns.fresh (by rwa [htexts]) ?_
    intro entry hentry
    rcases List.mem_append.1 hentry with hentry | hentry
    · exact hq entry hentry
    · obtain rfl := List.mem_singleton.1 hentry
      rw [Silent, hout]
      exact hstep

/-- A run in whose report no step shows is one of steps that rest. -/
theorem rests_of_runSteps {steps : List RecipeStep} {report : Report} {tree : Tree} {state : σ}
    (h : tree.Fresh reader)
    (hq : ∀ entry ∈ (runSteps sink (steps.map (RecipeStep.toStep (.ofTexts reader base))) report
      tree state).1.steps, Silent entry) :
    ∀ step ∈ steps, step.Rests reader (tree.texts base) := by
  induction steps generalizing report tree state with
  | nil => simp
  | cons step rest ih =>
    have hruns := step.runs base h
    have hout := Effect.outcome_of_answers (step.toStep (.ofTexts reader base)) hruns.answers
    rw [RecipeStep.toStep_policy, ← RecipeStep.outcome] at hout
    simp only [List.map_cons, runSteps] at hq
    have hstep : step.Rests reader (tree.texts base) := by
      rw [RecipeStep.Rests, ← hout]
      apply hq
      split
      · exact List.mem_append_right _ (List.mem_singleton_self _)
      · apply (prefix_runSteps ..).subset
        exact List.mem_append_right _ (List.mem_singleton_self _)
    have hf : ((step.toStep (.ofTexts reader base)).reportOn
        ((step.toStep (.ofTexts reader base)).run tree).1).outcome.isFailure = false := by
      rw [hout, isFailure_eq_false_iff]
      exact hstep.2
    have htexts := hruns.texts
    rw [Effect.after_of_not_write (RecipeStep.isWrite_eq_false_of_rests hstep)] at htexts
    simp only [hf, Bool.false_eq_true, if_false] at hq
    have hrest := ih hruns.fresh hq
    rw [htexts] at hrest
    exact List.forall_mem_cons.2 ⟨hstep, hrest⟩

end Report

namespace Tree

open PathMap

/-- Every staged file came with the text of the project, and no two are the same. -/
structure Grounded (base : PathMap String) (tree : Tree) : Prop where
  ordered : tree.files.Ordered
  loaded : ∀ entry ∈ tree.files.entries, base.find? entry.1 = some entry.2.loaded

variable {reader : TreeReader} {base : PathMap String} {tree tree' : Tree}

theorem grounded_empty : empty.Grounded base := ⟨PathMap.ordered_empty, nofun⟩

theorem Grounded.insert (h : tree.Grounded base) {path : Path} {file : StagedFile}
    (hf : base.find? path = some file.loaded) : Grounded base ⟨tree.files.insert path file⟩ := by
  refine ⟨PathMap.ordered_insert h.ordered path file, ?_⟩
  intro entry hmem
  rcases PathMap.mem_insertEntry hmem with ⟨hs, he⟩ | hmem
  · rw [PathMap.find?_congr hs, he]
    exact hf
  · exact h.loaded entry hmem

theorem grounded_move (h : Move (.ofTexts reader base) tree tree') (hg : tree.Grounded base) :
    tree'.Grounded base := by
  cases h with
  | load _ hr _ =>
    apply hg.insert
    simpa [Project.ofTexts, View.ofTexts, fileOf] using hr
  | commit hf _ _ _ =>
    apply hg.insert
    obtain ⟨key, hs, hmem⟩ := PathMap.exists_mem_of_find hf
    rw [← PathMap.find?_congr hs]
    exact hg.loaded _ hmem

/-- A changed text is that of a staged file. -/
theorem mem_staged {entry : Path × String} :
    entry ∈ tree.staged ↔
      ∃ file, (entry.1, file) ∈ tree.files.entries ∧ file.isChanged = true ∧ file.text = entry.2 := by
  simp only [staged, changed, List.mem_map, List.mem_filter]
  constructor
  · rintro ⟨⟨key, file⟩, ⟨hmem, hc⟩, rfl⟩
    exact ⟨file, hmem, hc, rfl⟩
  · rintro ⟨file, hmem, hc, ht⟩
    exact ⟨(entry.1, file), ⟨hmem, hc⟩, Prod.ext rfl ht⟩

/-- The staged texts put into those the project came with are the present texts. -/
theorem find?_insertAll_staged (h : tree.Grounded base) :
    (base.insertAll tree.staged).find? = tree.texts base := by
  funext path
  have hone : ∀ entry ∈ tree.staged.reverse, entry.1.same path = true →
      ∃ file, tree.files.find? path = some file ∧ file.isChanged = true ∧ file.text = entry.2 := by
    intro entry hmem hs
    obtain ⟨file, hf, hc, ht⟩ := mem_staged.1 (List.mem_reverse.1 hmem)
    refine ⟨file, ?_, hc, ht⟩
    rw [← PathMap.find?_congr hs]
    exact h.ordered.find?_of_mem hf
  rw [PathMap.find?_insertAll]
  cases hf : tree.files.find? path with
  | none =>
    have hnone : findEntry? path tree.staged.reverse = none := by
      apply PathMap.findEntry?_of_forall
      intro entry hmem
      rw [Bool.eq_false_iff]
      intro hs
      obtain ⟨file, hfile, -⟩ := hone entry hmem hs
      rw [hf] at hfile
      cases hfile
    simp [hnone, texts, hf]
  | some file =>
    obtain ⟨key, hs, hmem⟩ := PathMap.exists_mem_of_find hf
    have hloaded := h.loaded _ hmem
    rw [PathMap.find?_congr hs] at hloaded
    cases hc : file.isChanged with
    | true =>
      have hsome : findEntry? path tree.staged.reverse = some file.text := by
        apply PathMap.findEntry?_of_unique hs (List.mem_reverse.2 (mem_staged.2 ⟨file, hmem, hc, rfl⟩))
        intro entry hentry hsame
        obtain ⟨other, hother, -, ht⟩ := hone entry hentry hsame
        rw [hf] at hother
        obtain rfl := Option.some.inj hother
        exact ht.symm
      simp [hsome, texts, hf]
    | false =>
      have hnone : findEntry? path tree.staged.reverse = none := by
        apply PathMap.findEntry?_of_forall
        intro entry hentry
        rw [Bool.eq_false_iff]
        intro hsame
        obtain ⟨other, hother, hchanged, -⟩ := hone entry hentry hsame
        rw [hf] at hother
        obtain rfl := Option.some.inj hother
        rw [hc] at hchanged
        cases hchanged
      have htext : file.loaded = file.text := by simpa [StagedFile.isChanged] using hc
      simp [hnone, texts, hf, hloaded, htext]

end Tree

namespace SetupOutcome

/-- A setup that changed nothing: there is no staged text and no patch, and no step shows as done
or as failed. -/
structure Silent (outcome : SetupOutcome) : Prop where
  staged : outcome.staged = []
  patch : outcome.patch = ""
  steps : ∀ entry ∈ outcome.report.steps, entry.outcome ≠ .success ∧ entry.outcome ≠ .failed

def recipe (settings : SetupSettings) : List RecipeStep :=
  Recipe.firebase settings.project settings.firebase settings.versions

variable {σ : Type} (sink : Sink σ) (stamp : RunStamp) (tool : ToolInfo) {reader : TreeReader}
  {base : PathMap String} (settings : SetupSettings) (state : σ)

def runOf (reader : TreeReader) (base : PathMap String) : Report × Tree × σ :=
  Report.runSteps sink ((recipe settings).map (RecipeStep.toStep (.ofTexts reader base)))
    (.start stamp) .empty state

/-- A setup is silent exactly if every step rests on the texts of the project. -/
theorem silent_iff :
    (ofRun sink stamp tool (.ofTexts reader base) settings state).1.Silent ↔
      ∀ step ∈ recipe settings, step.Rests reader base.find? := by
  constructor
  · intro h
    exact Report.rests_of_runSteps base sink Tree.fresh_empty h.steps
  · intro h
    obtain ⟨hchanged, hsteps⟩ := Report.runSteps_of_rests base sink (.start stamp) state
      Tree.fresh_empty h (by simp [Report.start])
    have hnil : (runOf sink stamp settings state reader base).2.1.changed = [] := hchanged
    refine ⟨?_, ?_, hsteps⟩
    · change (runOf sink stamp settings state reader base).2.1.staged = []
      rw [Tree.staged, hnil, List.map_nil]
    · change (runOf sink stamp settings state reader base).2.1.patch = ""
      rw [Tree.patch, hnil]
      rfl

/-- A setup that is not stopped stages the texts that its steps lead to. -/
theorem complete_of_ofRun
    (h : (ofRun sink stamp tool (.ofTexts reader base) settings state).1.report.abortedBy = none) :
    RecipeStep.Complete reader (recipe settings) base.find? ∧
      (base.insertAll (ofRun sink stamp tool (.ofTexts reader base) settings state).1.staged).find? =
        Texts.afterAll reader base.find? (recipe settings) := by
  have hn : (runOf sink stamp settings state reader base).1.abortedBy = none := h
  obtain ⟨hcomplete, htexts, hmoves⟩ := Report.runSteps_complete base sink (.start stamp) state
    Tree.fresh_empty rfl hn
  refine ⟨hcomplete, ?_⟩
  have hgrounded := hmoves.keeps (P := Tree.Grounded base) Tree.grounded_move Tree.grounded_empty
  exact (Tree.find?_insertAll_staged hgrounded).trans htexts

/-- A setup that is not stopped changes nothing the second time exactly if every step rests on the
texts that the first time led to. -/
theorem silent_again_iff {σ' : Type} (sink' : Sink σ') (stamp' : RunStamp) (state' : σ')
    (h : (ofRun sink stamp tool (.ofTexts reader base) settings state).1.report.abortedBy = none) :
    (ofRun sink' stamp' tool (.ofTexts reader (base.insertAll
        (ofRun sink stamp tool (.ofTexts reader base) settings state).1.staged)) settings
        state').1.Silent ↔
      ∀ step ∈ recipe settings,
        step.Rests reader (Texts.afterAll reader base.find? (recipe settings)) := by
  rw [silent_iff, (complete_of_ofRun sink stamp tool settings state h).2]

end SetupOutcome

end Codemod
