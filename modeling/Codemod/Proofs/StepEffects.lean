import Codemod.Proofs.Specifiers
import Codemod.Proofs.StepCourses
import Codemod.Setup.Recipe

/-!
What a step does to the texts of a project.

The effect of a step is worked out from the present texts alone: one text is written, or nothing
is. `PatchStep.runs` and `ManifestStep.runs` say that a step run on a staging area has this effect
and reports it, whatever was loaded before and however the paths were spelled.
-/
namespace Codemod

open Manifest

/-- What a step does. -/
inductive Effect where
  /-- A file gets another text. -/
  | write (path : Path) (text : String)
  /-- What the step is about is there. -/
  | present
  /-- There is nothing to work on. -/
  | missing
  | fails

namespace Effect

def outcome (policy : FailurePolicy) : Effect → StepOutcome
  | write .. => .success
  | present => .alreadyPresent
  | missing => .missingTarget
  | fails => policy.outcome

def after (texts : Texts) : Effect → Texts
  | write path text => texts.put path text
  | _ => texts

def isWrite : Effect → Bool
  | write .. => true
  | _ => false

def ofError (error : StepError) : Effect := if error.skipsStep then missing else fails

theorem after_of_not_write {effect : Effect} (h : effect.isWrite = false) (texts : Texts) :
    effect.after texts = texts := by
  cases effect <;> first | rfl | cases h

/-- A step answers what suits its effect. -/
def Answers : Effect → Except StepError StepOutput → Prop
  | write .., .ok output => output.applied = true
  | present, .ok output => output.applied = false
  | missing, .error error => error.skipsStep = true
  | fails, .error error => error.skipsStep = false
  | _, _ => False

theorem outcome_of_answers {effect : Effect} (step : Step) {answer : Except StepError StepOutput}
    (h : effect.Answers answer) : (step.reportOn answer).outcome = effect.outcome step.policy := by
  cases effect <;> cases answer <;>
    simp_all [Answers, Step.reportOn, Step.failure, outcome]

@[simp] theorem isWrite_ofError (error : StepError) : (ofError error).isWrite = false := by
  unfold ofError
  split <;> rfl

theorem answers_ofError {error error' : StepError} (h : error'.skipsStep = error.skipsStep) :
    (ofError error).Answers (.error error') := by
  unfold ofError
  split <;> simp_all [Answers]

end Effect

/-- A result of a step on a staging area has an effect. -/
structure Runs (reader : TreeReader) (base : PathMap String) (tree : Tree) (effect : Effect)
    (result : Except StepError StepOutput × Tree) : Prop where
  moves : Tree.Moves (.ofTexts reader base) tree result.2
  fresh : result.2.Fresh reader
  texts : result.2.texts base = effect.after (tree.texts base)
  changed : effect.isWrite = false → result.2.changed = tree.changed
  answers : effect.Answers result.1

theorem Tree.Alike.runs {reader : TreeReader} {base : PathMap String} {tree tree' : Tree}
    (h : Tree.Alike reader base tree tree') {effect : Effect}
    {answer : Except StepError StepOutput} (hw : effect.isWrite = false)
    (ha : effect.Answers answer) : Runs reader base tree effect (answer, tree') := by
  refine ⟨h.moves, h.fresh, ?_, fun _ => h.changed, ha⟩
  rw [Effect.after_of_not_write hw, h.texts]

/-- What was loaded on the way makes no difference. -/
theorem Runs.of_alike {reader : TreeReader} {base : PathMap String} {tree mid : Tree}
    {effect : Effect} {result : Except StepError StepOutput × Tree}
    (h : Tree.Alike reader base tree mid) (hr : Runs reader base mid effect result) :
    Runs reader base tree effect result :=
  ⟨h.moves.trans hr.moves, hr.fresh, by rw [hr.texts, h.texts], fun hw => (hr.changed hw).trans h.changed, hr.answers⟩

@[simp] theorem mapError_ok {α β ε : Type} (f : ε → β) (a : α) :
    (Except.ok a : Except ε α).mapError f = .ok a := rfl

@[simp] theorem mapError_error {α β ε : Type} (f : ε → β) (e : ε) :
    (Except.error e : Except ε α).mapError f = .error (f e) := rfl

def PlanError.spelledAs (p : Path) : PlanError → PlanError
  | anchorNotFound _ pattern => anchorNotFound p pattern
  | incompatibleAnchor _ change kind => incompatibleAnchor p change kind
  | nameTaken _ identifier module => nameTaken p identifier module
  | offsetOutsideText _ offset => offsetOutsideText p offset
  | error => error

def EditPlan.spelledAs (p : Path) : EditPlan → EditPlan
  | noOp _ rationale => noOp p rationale
  | insert _ offset text rationale => insert p offset text rationale

namespace SourceFile

variable (file : SourceFile) (p : Path)

theorem findAnchor_spelledAs (pattern : AnchorPattern) :
    (file.spelledAs p).findAnchor pattern =
      (file.findAnchor pattern).mapError (PlanError.spelledAs p) := by
  have h : (file.spelledAs p).anchor? pattern = file.anchor? pattern := by cases pattern <;> rfl
  unfold findAnchor
  rw [h]
  cases file.anchor? pattern <;> rfl

theorem locate_spelledAs (change : Change) :
    (file.spelledAs p).locate change = (file.locate change).mapError (PlanError.spelledAs p) := by
  have h : ∀ pattern, (file.spelledAs p).anchor? pattern = file.anchor? pattern := by
    intro pattern
    cases pattern <;> rfl
  cases change with
  | appendField declarator key entries => exact findAnchor_spelledAs ..
  | insertImport identifier module =>
    simp only [locate, h]
    cases file.anchor? (.namedImportsOf module) with
    | some anchor => rfl
    | none => exact findAnchor_spelledAs ..
  | register callee property token => cases property <;> exact findAnchor_spelledAs ..

theorem elementInsertion_spelledAs (anchor : Anchor) (element : String) :
    (file.spelledAs p).elementInsertion anchor element =
      (file.elementInsertion anchor element).mapError (PlanError.spelledAs p) := by
  simp only [elementInsertion, spelledAs]
  cases Text.cut? file.text.toList anchor.offset <;> rfl

theorem insertionText_spelledAs (anchor : Anchor) (change : Change) :
    (file.spelledAs p).insertionText anchor change =
      (file.insertionText anchor change).mapError (PlanError.spelledAs p) := by
  obtain ⟨offset, kind, needs⟩ := anchor
  cases change with
  | appendField declarator key entries => cases kind <;> rfl
  | insertImport identifier module => cases kind <;> rfl
  | register callee property token =>
    cases kind <;> cases property <;> first | rfl | exact elementInsertion_spelledAs ..

/-- A plan does not depend on how the path of the file is spelled. -/
theorem plan_spelledAs (change : Change) :
    (file.spelledAs p).plan change =
      ((file.plan change).map (EditPlan.spelledAs p)).mapError (PlanError.spelledAs p) := by
  have hpresent : (file.spelledAs p).isPresent change = file.isPresent change := by
    cases change <;> rfl
  have hcollides : (file.spelledAs p).collides change =
      (file.collides change).map (PlanError.spelledAs p) := by
    cases change with
    | insertImport identifier module =>
      have h : (file.spelledAs p).nameTaken identifier = file.nameTaken identifier := rfl
      simp only [collides, h]
      cases file.nameTaken identifier <;> rfl
    | appendField | register => rfl
  simp only [plan, hpresent, hcollides, locate_spelledAs]
  cases file.isPresent change with
  | true => rfl
  | false =>
    cases file.collides change with
    | some error => rfl
    | none =>
      cases file.locate change with
      | error error => rfl
      | ok anchor =>
        simp only [Option.map, planAt, insertionText_spelledAs, mapError_ok, bind, Except.bind]
        cases file.insertionText anchor change <;> rfl

variable {file p}

theorem isTargetMissing_findAnchor {pattern : AnchorPattern} {error : PlanError}
    (h : file.findAnchor pattern = .error error) : error.isTargetMissing = false := by
  unfold findAnchor at h
  split at h <;> cases h
  rfl

theorem isTargetMissing_locate {change : Change} {error : PlanError}
    (h : file.locate change = .error error) : error.isTargetMissing = false := by
  cases change with
  | appendField => exact isTargetMissing_findAnchor h
  | insertImport identifier module =>
    simp only [locate] at h
    split at h
    · cases h
    · exact isTargetMissing_findAnchor h
  | register callee property token =>
    cases property <;> exact isTargetMissing_findAnchor h

theorem isTargetMissing_insertionText {anchor : Anchor} {change : Change} {error : PlanError}
    (h : file.insertionText anchor change = .error error) : error.isTargetMissing = false := by
  have helement : ∀ element, file.elementInsertion anchor element = .error error →
      error.isTargetMissing = false := by
    intro element he
    unfold elementInsertion at he
    split at he <;> cases he
    rfl
  cases change with
  | appendField =>
    simp only [insertionText] at h
    split at h <;> cases h
    rfl
  | insertImport =>
    simp only [insertionText] at h
    split at h <;> cases h
    rfl
  | register callee property token =>
    simp only [insertionText] at h
    split at h
    · exact helement _ h
    · exact helement _ h
    · exact helement _ h
    · cases h
      rfl

/-- A plan that cannot be made never lacks a file. -/
theorem isTargetMissing_plan {change : Change} {error : PlanError}
    (h : file.plan change = .error error) : error.isTargetMissing = false := by
  have hplan := file.plansTo_plan change
  rw [h] at hplan
  cases hplan with
  | taken _ hc =>
    obtain ⟨identifier, module, rfl, -, rfl⟩ := collides_eq_some hc
    rfl
  | lost _ _ hl => exact isTargetMissing_locate hl
  | unfit _ _ _ ht => exact isTargetMissing_insertionText ht

end SourceFile

def TargetFile.find (reader : TreeReader) (texts : Texts) : TargetFile → Except StepError Path
  | file (some path) => .ok path
  | file none => .error (.missing none)
  | rootModuleOf main =>
    match texts.source reader main with
    | .ok source => .ok (source.rootModule.getD main)
    | .error error => .error (.edit error)

def ChangeSpec.find (texts : Texts) (target : Path) : ChangeSpec → Except StepError Change
  | fixed change => .ok change
  | importFrom _ none => .error (.missing none)
  | importFrom identifier (some file) =>
    if (texts file).isSome then .ok (.insertImport identifier (specifierTo target file))
    else .error (.missing (some file))

namespace PatchStep

def effectOn (reader : TreeReader) (step : PatchStep) (target : Path) (source : SourceFile)
    (change : Change) : Effect :=
  match step.planFor target source change with
  | .error error => .ofError error
  | .ok (.noOp ..) => .present
  | .ok (.insert _ offset piece _) =>
    match Text.insertAt? source.text offset piece with
    | none => .fails
    | some text =>
      match analyze reader target text with
      | .error _ => .fails
      | .ok _ => .write target text

/-- What a step does, by the texts. -/
def effect (reader : TreeReader) (texts : Texts) (step : PatchStep) : Effect :=
  match step.target.find reader texts with
  | .error error => .ofError error
  | .ok target =>
    match step.change.find texts target with
    | .error error => .ofError error
    | .ok change =>
      match texts.source reader target with
      | .error error => .ofError (.edit error)
      | .ok source => step.effectOn reader target source change

end PatchStep

section runs

variable {reader : TreeReader} {base : PathMap String} {tree : Tree}

/-- Finding the file of a step loads at most the entry file. -/
theorem TargetFile.resolve_eq (base : PathMap String) (h : tree.Fresh reader) (target : TargetFile) :
    (target.resolve (.ofTexts reader base) tree).1 = target.find reader (tree.texts base) ∧
      Tree.Alike reader base tree (target.resolve (.ofTexts reader base) tree).2 := by
  cases target with
  | file path => cases path <;> exact ⟨rfl, .refl h⟩
  | rootModuleOf main =>
    have hanswer := Tree.source_answer base h main
    have halike := Tree.alike_load base h main
    rw [← Tree.source_tree] at halike
    cases hs : tree.source (.ofTexts reader base) main with
    | mk answer tree' =>
      rw [hs] at hanswer halike
      cases hf : (tree.texts base).source reader main with
      | error error =>
        rw [hf] at hanswer
        obtain rfl : answer = _ := hanswer
        simpa [resolve, hs, find, hf] using halike
      | ok source =>
        rw [hf] at hanswer
        obtain ⟨p, hp, rfl⟩ := hanswer
        have hpath := (Texts.source_eq_ok_iff.1 hf).2.1
        have hroot := source.rootModule_spelledAs (p := p) (hpath ▸ hp)
        simpa [resolve, hs, find, hf, hroot] using halike

/-- Finding the change of a step asks for the present files only. -/
theorem ChangeSpec.resolve_eq (target : Path) (spec : ChangeSpec) :
    spec.resolve (.ofTexts reader base) tree target = spec.find (tree.texts base) target := by
  have hholds : ∀ path, tree.holds (.ofTexts reader base) path = (tree.texts base path).isSome := by
    intro path
    cases hf : tree.files.find? path <;>
      simp [Tree.holds, PathMap.contains, hf, Tree.texts, Project.ofTexts, View.ofTexts]
  cases spec with
  | fixed change => rfl
  | importFrom identifier file =>
    cases file with
    | none => rfl
    | some file => simp [resolve, find, hholds]

namespace PatchStep

/-- A plan is made or refused alike under another spelling. -/
theorem planFor_spelledAs (step : PatchStep) (target : Path) (source : SourceFile) (p : Path)
    (change : Change) :
    match step.planFor target source change with
    | .ok plan => step.planFor target (source.spelledAs p) change = .ok (plan.spelledAs p)
    | .error error => ∃ error', step.planFor target (source.spelledAs p) change = .error error' ∧
      error'.skipsStep = error.skipsStep := by
  have hl : step.lacking (source.spelledAs p) change = step.lacking source change := by
    have hpresent : (source.spelledAs p).isPresent change = source.isPresent change := by
      cases change <;> rfl
    have hbinds : (source.spelledAs p).bindsValue = source.bindsValue := rfl
    simp only [lacking, hpresent, hbinds]
  have hp := source.plan_spelledAs p change
  simp only [planFor, hl]
  cases step.lacking source change with
  | some identifier => exact ⟨_, rfl, rfl⟩
  | none =>
    cases hplan : source.plan change with
    | ok plan => simp [hp, hplan, Except.map]
    | error error =>
      have hmissing := SourceFile.isTargetMissing_plan hplan
      refine ⟨.edit (.plan (error.spelledAs p)), ?_, ?_⟩
      · simp [hp, hplan, Except.map]
      · cases error with
        | targetMissing path => cases hmissing
        | _ => rfl

/-- Making a change in a source file has the effect that its text gives. -/
theorem runs_patch (base : PathMap String) (h : tree.Fresh reader) (step : PatchStep) (target : Path) (change : Change) :
    Runs reader base tree
      (match (tree.texts base).source reader target with
      | .error error => .ofError (.edit error)
      | .ok source => step.effectOn reader target source change)
      (step.patch (.ofTexts reader base) target change tree) := by
  have hanswer := Tree.source_answer base h target
  have halike := Tree.alike_load base h target
  rw [← Tree.source_tree] at halike
  cases hs : tree.source (.ofTexts reader base) target with
  | mk answer mid =>
    rw [hs] at hanswer halike
    cases hf : (tree.texts base).source reader target with
    | error error =>
      rw [hf] at hanswer
      obtain rfl : answer = _ := hanswer
      simp only [patch, hs]
      exact halike.runs (Effect.isWrite_ofError _) (Effect.answers_ofError rfl)
    | ok source =>
      rw [hf] at hanswer
      obtain ⟨p, hp, rfl⟩ := hanswer
      obtain ⟨file, hfile, hsource⟩ := Tree.source_staged hs
      have htext : file.text = source.text :=
        ((halike.fresh.find? hfile).of_source _ hsource).1.symm
      have hplan := step.planFor_spelledAs target source p change
      simp only [patch, hs, effectOn]
      cases hpf : step.planFor target source change with
      | error error =>
        rw [hpf] at hplan
        obtain ⟨error', he, hskip⟩ := hplan
        simp only [he]
        exact halike.runs (Effect.isWrite_ofError _) (Effect.answers_ofError hskip)
      | ok plan =>
        rw [hpf] at hplan
        have hfile' : mid.files.find? p = some file := by rw [PathMap.find?_congr hp, hfile]
        simp only [hplan]
        cases plan with
        | noOp named rationale =>
          simp only [EditPlan.spelledAs, Tree.apply_noOp hfile']
          exact halike.runs rfl rfl
        | insert named offset piece rationale =>
          simp only [EditPlan.spelledAs, Tree.apply_insert hfile', htext]
          cases hi : Text.insertAt? source.text offset piece with
          | none => exact halike.runs rfl rfl
          | some text =>
            cases ha : analyze reader target text with
            | error error =>
              obtain ⟨error', ha'⟩ := analyze_error_congr (Path.same_symm hp) ha
              simp only [Project.ofTexts, ha, ha']
              exact halike.runs rfl rfl
            | ok source' =>
              obtain ⟨source', ha'⟩ := exists_analyze_congr (Path.same_symm hp) ha
              simp only [Project.ofTexts, ha, ha']
              refine Runs.of_alike halike ⟨?_, Tree.fresh_insert halike.fresh ha', ?_, ?_, rfl⟩
              · refine Tree.moves_edited hfile' ?_ ha'
                rw [EditRecord.replay?, Text.replaceAt?_zero, htext]
                exact hi
              · rw [Tree.texts_insert, Texts.put_congr hp]
                rfl
              · intro hw
                cases hw

/-- A patch step has the effect that the texts give. -/
theorem runs (base : PathMap String) (h : tree.Fresh reader) (step : PatchStep) :
    Runs reader base tree (step.effect reader (tree.texts base))
      (step.run (.ofTexts reader base) tree) := by
  obtain ⟨htarget, halike⟩ := TargetFile.resolve_eq base h step.target
  simp only [run, effect]
  cases hr : step.target.resolve (.ofTexts reader base) tree with
  | mk answer mid =>
    rw [hr] at htarget halike
    cases answer with
    | error error =>
      simp only [← htarget]
      exact halike.runs (Effect.isWrite_ofError _) (Effect.answers_ofError rfl)
    | ok target =>
      simp only [← htarget, ChangeSpec.resolve_eq, halike.texts]
      cases step.change.find (tree.texts base) target with
      | error error => exact halike.runs (Effect.isWrite_ofError _) (Effect.answers_ofError rfl)
      | ok change =>
        have hpatch := runs_patch base halike.fresh step target change
        rw [halike.texts] at hpatch
        exact hpatch.of_alike halike

end PatchStep

def ManifestStep.effect (reader : TreeReader) (texts : Texts) (step : ManifestStep) : Effect :=
  match step.manifest with
  | none => .missing
  | some path =>
    match texts.accepted reader path with
    | .error error => .ofError (.edit error)
    | .ok current =>
      match declareIn? path current step.dependencies with
      | .error error => .ofError error
      | .ok none => .present
      | .ok (some text) =>
        if text = current then .present
        else
          match analyze reader path text with
          | .error _ => .fails
          | .ok _ => .write path text

namespace ManifestStep

/-- A manifest step has the effect that the texts give. -/
theorem runs (base : PathMap String) (h : tree.Fresh reader) (step : ManifestStep) :
    Runs reader base tree (step.effect reader (tree.texts base))
      (step.run (.ofTexts reader base) tree) := by
  unfold run effect
  cases step.manifest with
  | none => exact (Tree.Alike.refl h).runs rfl rfl
  | some path =>
    have hanswer := Tree.load_answer base h path
    have halike := Tree.alike_load base h path
    cases hl : tree.load (.ofTexts reader base) path with
    | mk answer mid =>
      rw [hl] at hanswer halike
      cases answer with
      | error error =>
        simp only [Tree.text, hl, ← hanswer, Except.map]
        exact halike.runs (Effect.isWrite_ofError _) (Effect.answers_ofError rfl)
      | ok file =>
        have hfile := Tree.find?_of_load_ok hl
        simp only [Tree.text, hl, ← hanswer, Except.map]
        cases declareIn? path file.text step.dependencies with
        | error error =>
          exact halike.runs (Effect.isWrite_ofError _) (Effect.answers_ofError rfl)
        | ok found =>
          cases found with
          | none => exact halike.runs rfl rfl
          | some text =>
            simp only [stageText_staged hfile]
            by_cases ht : text = file.text
            · simp only [ht, if_true]
              exact halike.runs rfl rfl
            · simp only [ht, if_false]
              cases ha : analyze reader path text with
              | error error =>
                simp only [Project.ofTexts, ha]
                exact halike.runs rfl rfl
              | ok source =>
                simp only [Project.ofTexts, ha]
                refine Runs.of_alike halike ⟨?_, Tree.fresh_insert halike.fresh ha, ?_, ?_, rfl⟩
                · exact Tree.moves_edited hfile (Splice.replay?_between file.text text _) ha
                · rw [Tree.texts_insert]
                  rfl
                · intro hw
                  cases hw

end ManifestStep

end runs

namespace RecipeStep

def effect (reader : TreeReader) (texts : Texts) : RecipeStep → Effect
  | declare step => step.effect reader texts
  | patch step => step.effect reader texts

theorem runs {reader : TreeReader} {tree : Tree} (base : PathMap String)
    (h : tree.Fresh reader) (step : RecipeStep) :
    Runs reader base tree (step.effect reader (tree.texts base))
      ((step.toStep (.ofTexts reader base)).run tree) := by
  cases step with
  | declare step => exact step.runs base h
  | patch step => exact step.runs base h

@[simp] theorem toStep_name (project : Project) (step : RecipeStep) :
    (step.toStep project).name = step.name := by
  cases step <;> rfl

@[simp] theorem toStep_policy (project : Project) (step : RecipeStep) :
    (step.toStep project).policy = step.policy := by
  cases step <;> rfl

end RecipeStep

end Codemod
