import Codemod.Proofs.LaterTexts
import Codemod.Proofs.ManifestTables

/-!
Running a setup twice.

A setup that was not stopped changes nothing the second time, but for three lapses, and each of them
is one: an import whose specifier had to be escaped is not recognised; the import of the environment
may move the root module to another file; and a configuration that was only found as text may be
torn apart by what comes after it.
-/
namespace Codemod

open Manifest

namespace RecipeStep

variable {reader : TreeReader} {texts : Texts} {step : RecipeStep}

/-- Under the policy to stop a step rests unless it writes or fails. -/
theorem rests_of_abort (hp : step.policy = .abort) : step.Rests reader texts ↔
    (step.effect reader texts).isWrite = false ∧ step.effect reader texts ≠ .fails := by
  rw [Rests, outcome, hp]
  cases step.effect reader texts <;> simp [Effect.outcome, Effect.isWrite, FailurePolicy.outcome]

/-- Under the policy to warn a step rests unless it writes. -/
theorem rests_of_warn (hp : step.policy = .warn) :
    step.Rests reader texts ↔ (step.effect reader texts).isWrite = false := by
  rw [Rests, outcome, hp]
  cases step.effect reader texts <;> simp [Effect.outcome, Effect.isWrite, FailurePolicy.outcome]

/-- A step whose effect is no write and no failure rests. -/
theorem rests_of_complete (hw : (step.effect reader texts).isWrite = false)
    (hf : step.outcome reader texts ≠ .failed) : step.Rests reader texts := by
  refine ⟨?_, hf⟩
  intro hs
  rw [outcome] at hs
  cases he : step.effect reader texts with
  | write => simp [he, Effect.isWrite] at hw
  | present | missing => simp [he, Effect.outcome] at hs
  | fails =>
    rw [he] at hs
    cases hp : step.policy <;> simp [Effect.outcome, hp, FailurePolicy.outcome] at hs

end RecipeStep

namespace ManifestStep

variable {reader : TreeReader} {texts later : Texts} {step : ManifestStep}

/-- The effect depends on the text of the manifest only. -/
theorem effect_eq_of_text (h : ∀ path, step.manifest = some path → later path = texts path) :
    step.effect reader later = step.effect reader texts := by
  unfold effect
  cases hm : step.manifest with
  | none => rfl
  | some path =>
    have he : later.accepted reader path = texts.accepted reader path := by
      rw [Texts.accepted, Texts.accepted, h path hm]
    simp only [he]

/-- Declaring what was declared writes nothing. -/
theorem isWrite_again (reader : TreeReader) (texts : Texts) (step : ManifestStep) :
    (step.effect reader ((step.effect reader texts).after texts)).isWrite = false := by
  cases he : step.effect reader texts with
  | present | missing | fails =>
    change (step.effect reader texts).isWrite = false
    rw [he]
    rfl
  | write path text =>
    unfold effect at he
    split at he
    · cases he
    · rename_i found hm
      split at he
      · exact absurd he (PatchStep.ofError_ne_write _ _ _)
      · rename_i current ha
        unfold declareIn? at he
        cases hd : declareAll? current step.dependencies with
        | error error => simp [hd, PatchStep.ofError_ne_write] at he
        | ok declared =>
          cases declared with
          | none => simp [hd] at he
          | some new =>
            simp only [hd] at he
            split at he
            · cases he
            · split at he
              · cases he
              · rename_i source hs
                obtain ⟨rfl, rfl⟩ := Effect.write.inj he
                have haccepted : (texts.put found new).accepted reader found = .ok new :=
                  Texts.accepted_eq_ok_iff.2 ⟨Texts.put_same (Path.same_refl _) _, source, hs⟩
                simp only [effect, hm, Effect.after, haccepted, declareIn?]
                rcases declareAll?_again hd with hnone | ⟨error, herror⟩
                · simp [hnone, Effect.isWrite]
                · simp [herror]

/-- A program is no manifest. -/
theorem isWrite_of_program {path : Path} {file : SourceFile} (hm : step.manifest = some path)
    (hf : texts.source reader path = .ok file) (hd : ∀ json, Json.read file.text ≠ .ok json) :
    (step.effect reader texts).isWrite = false := by
  have ht := (Texts.source_eq_ok_iff.1 hf).1
  simp only [effect, hm]
  cases ha : texts.accepted reader path with
  | error error => simp
  | ok current =>
    obtain rfl : file.text = current := by
      have := (Texts.accepted_eq_ok_iff.1 ha).1
      rw [ht] at this
      exact Option.some.inj this
    have hshape : ∃ error, declareAll? file.text step.dependencies = .error error := by
      cases hr : Json.read file.text with
      | ok json => exact absurd hr (hd json)
      | error fault => exact ⟨.notJson fault, by simp [declareAll?, membersOf, hr, bind, Except.bind]⟩
    obtain ⟨error, he⟩ := hshape
    simp [declareIn?, he]

end ManifestStep

namespace PatchStep

variable {reader : TreeReader} {texts : Texts} {step : PatchStep} {target : Path}
  {change : Change} {file : SourceFile}

/-- What is there is found. -/
theorem effect_of_present (ht : step.target.find reader texts = .ok target)
    (hc : step.change.find texts target = .ok change) (hf : texts.source reader target = .ok file)
    (hp : file.isPresent change = true) : step.effect reader texts = .present := by
  have hl : step.lacking file change = none := by
    simp [lacking, hp]
  simp [effect, ht, hc, hf, effectOn, planFor, hl, SourceFile.plan, hp, SourceFile.noOpPlan]

/-- What is not there is written, or the step fails. -/
theorem effect_of_absent (hr : step.requires = none) (ht : step.target.find reader texts = .ok target)
    (hc : step.change.find texts target = .ok change) (hf : texts.source reader target = .ok file)
    (hp : file.isPresent change = false) :
    (step.effect reader texts).isWrite = true ∨ step.effect reader texts = .fails := by
  have hl : step.lacking file change = none := by
    simp [lacking, hr]
  simp only [effect, ht, hc, hf, effectOn, planFor, hl]
  cases hplan : file.plan change with
  | error error =>
    have hmissing := SourceFile.isTargetMissing_plan hplan
    refine .inr ?_
    cases error with
    | targetMissing path => cases hmissing
    | _ => rfl
  | ok plan =>
    cases plan with
    | noOp named rationale =>
      rw [SourceFile.isPresent_of_noOp hplan] at hp
      cases hp
    | insert named offset piece rationale =>
      simp only
      split
      · exact .inr rfl
      · split
        · exact .inr rfl
        · exact .inl rfl

/-- A step that neither wrote nor failed has found what it is about. -/
theorem isPresent_of_effect (hr : step.requires = none)
    (ht : step.target.find reader texts = .ok target)
    (hc : step.change.find texts target = .ok change) (hf : texts.source reader target = .ok file)
    (hw : (step.effect reader texts).isWrite = false) (hn : step.effect reader texts ≠ .fails) :
    file.isPresent change = true := by
  cases hp : file.isPresent change with
  | true => rfl
  | false =>
    rcases effect_of_absent hr ht hc hf hp with h | h
    · rw [h] at hw
      cases hw
    · exact absurd h hn

/-- Where a file is found for it, a step that may stop the run rests exactly if the change is
there. -/
theorem rests_iff_isPresent (hp : step.policy = .abort) (hr : step.requires = none)
    (ht : step.target.find reader texts = .ok target)
    (hc : step.change.find texts target = .ok change) (hf : texts.source reader target = .ok file) :
    (RecipeStep.patch step).Rests reader texts ↔ file.isPresent change = true := by
  have hrests : (RecipeStep.patch step).Rests reader texts ↔
      (step.effect reader texts).isWrite = false ∧ step.effect reader texts ≠ .fails :=
    RecipeStep.rests_of_abort hp
  rw [hrests]
  constructor
  · rintro ⟨hw, hn⟩
    exact isPresent_of_effect hr ht hc hf hw hn
  · intro hpresent
    rw [effect_of_present ht hc hf hpresent]
    exact ⟨rfl, nofun⟩

/-- With a given file and a given change the effect depends on the text of the file only. -/
theorem effect_eq_of_text {later : Texts} (ht : step.target = .file (some target))
    (hc : step.change = .fixed change) (h : later target = texts target) :
    step.effect reader later = step.effect reader texts := by
  simp only [effect, ht, hc, TargetFile.find, ChangeSpec.find, Texts.source_eq_of_text h]

/-- A step that neither wrote nor failed comes to the same where what it is about is kept. -/
theorem effect_eq_of_keeps {later : Texts} (hr : step.requires = none)
    (ht : step.target.find reader later = step.target.find reader texts)
    (hc : ∀ target, step.change.find later target = step.change.find texts target)
    (hk : ∀ target change, step.change.find texts target = .ok change →
      Texts.Keeps reader (fun file => file.isPresent change) texts later)
    (hw : (step.effect reader texts).isWrite = false) (hn : step.effect reader texts ≠ .fails) :
    step.effect reader later = step.effect reader texts := by
  cases htarget : step.target.find reader texts with
  | error error => simp only [effect, ht, htarget]
  | ok target =>
    cases hchange : step.change.find texts target with
    | error error => simp only [effect, ht, htarget, hc, hchange]
    | ok change =>
      have hkeeps := hk target change hchange
      cases hf : texts.source reader target with
      | error error => simp only [effect, ht, htarget, hc, hchange, hf, hkeeps.error hf]
      | ok file =>
        obtain ⟨file', hf', he⟩ := hkeeps.source hf
        have hp := isPresent_of_effect hr htarget hchange hf hw hn
        rw [effect_of_present htarget hchange hf hp,
          effect_of_present (ht.trans htarget) ((hc target).trans hchange) hf' (he.trans hp)]

end PatchStep

/-- A given file is found as it is given. -/
theorem TargetFile.find_file_iff {reader : TreeReader} {texts : Texts} {path : Option Path}
    {target : Path} : (TargetFile.file path).find reader texts = .ok target ↔ path = some target := by
  cases path <;> simp [find]

/-- The root module is found again where it is kept. -/
theorem TargetFile.find_of_keeps {reader : TreeReader} {texts later : Texts} (main : Path)
    (h : Texts.Keeps reader SourceFile.rootModule texts later) :
    (TargetFile.rootModuleOf main).find reader later =
      (TargetFile.rootModuleOf main).find reader texts := by
  simp only [find]
  cases hf : texts.source reader main with
  | error error => rw [Texts.Follow.error h hf]
  | ok file =>
    obtain ⟨file', hf', hr⟩ := h.source hf
    simp only [hf', hr]

/-- The change of a step depends only on which files there are. -/
theorem ChangeSpec.find_of_follow {reader : TreeReader} {K : SourceFile → SourceFile → Prop}
    {texts later : Texts} (h : Texts.Follow reader K texts later) (spec : ChangeSpec)
    (target : Path) : spec.find later target = spec.find texts target := by
  cases spec with
  | fixed change => rfl
  | importFrom identifier file =>
    cases file with
    | none => rfl
    | some file => simp only [find, h.isSome file]

end Codemod
