import Codemod.Proofs.SecondRuns

/-!
What the steps of a first run leave alone.

The field of the configuration is kept by the imports and by the registration; the root module and
the import of the environment are kept by everything after that import; and so on for the later
steps. What a first run has made is therefore still there when it ends.
-/
namespace Codemod

open SetupOutcome (recipe)

namespace SourceFile.Brings

variable {reader : TreeReader} {change : Change} {anchor : Anchor} {piece : String}
  {file file' : SourceFile} (hg : reader.Grammatical) (hs : SetupChange change)
  (hread : file.IsRead reader) (h : file.Brings reader change anchor piece file')

include hg hs hread h

/-- A file that got a change of a setup is no data. -/
theorem not_data (json : Json) : Json.read file'.text ≠ .ok json := by
  cases hs with
  | field options => exact (h.of_field hg hread).2 json
  | environment module => exact h.not_data_import hg hread (.environment module) json
  | package => exact h.not_data_import hg hread .package json
  | registration => exact h.not_data_registration hg hread .registration json

/-- Other changes do not touch the configuration. -/
theorem objectHasKey_other
    (hother : ∀ options : FirebaseOptions,
      change ≠ .appendField (some "environment") "firebase" options.entries) :
    file'.objectHasKey (some "environment") "firebase" =
      file.objectHasKey (some "environment") "firebase" := by
  cases hs with
  | field options => exact absurd rfl (hother options)
  | environment module => exact h.objectHasKey_import hg hread (.environment module)
  | package => exact h.objectHasKey_import hg hread .package
  | registration => exact h.objectHasKey_registration hg hread .registration

end SourceFile.Brings

/-- The specifier of the package is no relative path, however it is written. -/
theorem package_not_relative (s : String)
    (h : s = String.ofList (Text.escaped "@angular/fire") ∨ sameModule s "@angular/fire" = true) :
    s.toList.head? ≠ some '.' := by
  rcases h with rfl | h
  · decide
  · intro hd
    obtain ⟨tail, -, ht⟩ := stripSourceExtension_append s
    have hstem : stripSourceExtension s = "@angular/fire" := by
      rw [sameModule, beq_iff_eq] at h
      rw [h]
      decide
    rw [ht, hstem, String.toList_append] at hd
    cases hd

namespace PatchStep

variable {reader : TreeReader} {texts : Texts} {step : PatchStep} {target : Path}
  {change : Change} {anchor : Anchor} {file file' : SourceFile}

theorem Wrote.isRead (h : Wrote reader texts step target change anchor file file') :
    file.IsRead reader := (Texts.source_eq_ok_iff.1 h.source).2.2.2

section

variable (hg : reader.Grammatical) (hu : texts.Uniform)
  (hs : ∀ target change, step.change.find texts target = .ok change → SetupChange change)

include hg hu hs

/-- What a step has changed is no data. -/
theorem follow_not_data :
    Texts.Follow reader (fun _ file' => ∀ json, Json.read file'.text ≠ .ok json) texts
      ((step.effect reader texts).after texts) := by
  refine follow_effect hu (fun _ _ _ hk => hk) ?_
  intro target change anchor file file' hw
  obtain ⟨piece, hb⟩ := hw.brings
  exact hb.not_data hg (hs target change hw.chosen) hw.isRead

/-- A step with another change keeps the configuration. -/
theorem keeps_field (hother : ∀ target change, step.change.find texts target = .ok change →
      ∀ options : FirebaseOptions,
        change ≠ .appendField (some "environment") "firebase" options.entries) :
    Texts.Keeps reader (fun file => file.objectHasKey (some "environment") "firebase") texts
      ((step.effect reader texts).after texts) := by
  refine keeps_effect hu (fun _ _ => rfl) ?_
  intro target change anchor file file' hw
  obtain ⟨piece, hb⟩ := hw.brings
  exact hb.objectHasKey_other hg (hs target change hw.chosen) hw.isRead
    (hother target change hw.chosen)

end

end PatchStep

namespace Recipe

variable {reader : TreeReader} {texts : Texts} (project : ProjectFiles)

/-- An import of the environment is one from where it is. -/
theorem change_importEnvironment {target : Path} {change : Change}
    (h : (importEnvironment project).change.find texts target = .ok change) :
    ∃ environment, project.environment = some environment ∧ (texts environment).isSome = true ∧
      change = .insertImport "environment" (specifierTo target environment) := by
  simp only [importEnvironment, ChangeSpec.find] at h
  cases he : project.environment with
  | none => simp [he] at h
  | some environment =>
    simp only [he] at h
    split at h
    · rename_i hsome
      exact ⟨environment, rfl, hsome, (Except.ok.inj h).symm⟩
    · cases h

/-- Every patch step of the recipe makes a change of a setup. -/
theorem setupChange_of_find {settings : SetupSettings} {step : PatchStep} {target : Path}
    {change : Change} (hs : .patch step ∈ recipe settings)
    (hc : step.change.find texts target = .ok change) : SetupChange change := by
  simp only [recipe, firebase, List.mem_cons, List.not_mem_nil, or_false, RecipeStep.patch.injEq,
    reduceCtorEq, false_or] at hs
  rcases hs with rfl | rfl | rfl | rfl
  · obtain rfl := Except.ok.inj hc
    exact .field settings.firebase
  · obtain ⟨environment, -, -, rfl⟩ := change_importEnvironment settings.project hc
    exact .environment _
  · obtain rfl := Except.ok.inj hc
    exact .package
  · obtain rfl := Except.ok.inj hc
    exact .registration

section

variable (hg : reader.Grammatical) (hu : texts.Uniform)

include hg hu

/-- The import of the package keeps the root module. -/
theorem keeps_root_importAngularFire :
    Texts.Keeps reader SourceFile.rootModule texts
      (((importAngularFire project).effect reader texts).after texts) := by
  refine PatchStep.keeps_effect hu (fun _ hp => SourceFile.rootModule_spelledAs _ hp) ?_
  intro target change anchor file file' hw
  obtain rfl := Except.ok.inj hw.chosen
  obtain ⟨piece, hb⟩ := hw.brings
  have hfree : file.nameTaken "AngularFireModule" = false := by
    have hfree := hw.free
    simp only [SourceFile.collides] at hfree
    cases hn : file.nameTaken "AngularFireModule" with
    | false => rfl
    | true => simp [hn] at hfree
  exact hb.rootModule_import (hg.growsBy .package) hw.isRead hfree package_not_relative

/-- It keeps the imports of the environment. -/
theorem keeps_imports_importAngularFire :
    Texts.Keeps reader (fun file => file.importBinds "environment") texts
      (((importAngularFire project).effect reader texts).after texts) := by
  refine PatchStep.keeps_effect hu (fun _ _ => rfl) ?_
  intro target change anchor file file' hw
  obtain rfl := Except.ok.inj hw.chosen
  obtain ⟨piece, hb⟩ := hw.brings
  funext origin
  exact hb.importBinds_import hg hw.isRead .package (by decide) origin

/-- The registration keeps the root module. -/
theorem keeps_root_registerAngularFire :
    Texts.Keeps reader SourceFile.rootModule texts
      (((registerAngularFire project).effect reader texts).after texts) := by
  refine PatchStep.keeps_effect hu (fun _ hp => SourceFile.rootModule_spelledAs _ hp) ?_
  intro target change anchor file file' hw
  obtain rfl := Except.ok.inj hw.chosen
  obtain ⟨piece, hb⟩ := hw.brings
  exact hb.rootModule_registration hg hw.isRead .registration

/-- It keeps all imports. -/
theorem keeps_imports_registerAngularFire :
    Texts.Keeps reader SourceFile.importBinds texts
      (((registerAngularFire project).effect reader texts).after texts) := by
  refine PatchStep.keeps_effect hu (fun _ _ => rfl) ?_
  intro target change anchor file file' hw
  obtain rfl := Except.ok.inj hw.chosen
  obtain ⟨piece, hb⟩ := hw.brings
  funext name origin
  exact hb.importBinds_registration hg hw.isRead .registration name origin

end

end Recipe

def Texts.stage (reader : TreeReader) (settings : SetupSettings) (texts : Texts) (n : Nat) : Texts :=
  texts.afterAll reader ((recipe settings).take n)

/-- A setup that no step stops. -/
structure FirstRun (reader : TreeReader) (settings : SetupSettings) (texts : Texts) : Prop where
  grammatical : reader.Grammatical
  uniform : texts.Uniform
  complete : RecipeStep.Complete reader (recipe settings) texts

namespace FirstRun

variable {reader : TreeReader} {settings : SetupSettings} {texts : Texts}
  (h : FirstRun reader settings texts)

include h

theorem uniform_stage (n : Nat) : (texts.stage reader settings n).Uniform := by
  have hall : ∀ (steps : List RecipeStep) (texts : Texts), texts.Uniform →
      (texts.afterAll reader steps).Uniform := by
    intro steps
    induction steps with
    | nil => exact fun _ hu => hu
    | cons step rest ih => exact fun texts hu => ih _ (hu.after _)
  intro p q hs
  exact hall _ texts h.uniform hs

/-- What was changed after the manifest is no data. -/
theorem follow_not_data : Texts.Follow reader (fun _ file' => ∀ json, Json.read file'.text ≠ .ok json)
    (texts.stage reader settings 1) (texts.stage reader settings 5) := by
  have hone : ∀ (n : Nat) (step : PatchStep), .patch step ∈ recipe settings →
      Texts.Follow reader (fun _ file' => ∀ json, Json.read file'.text ≠ .ok json)
        (texts.stage reader settings n) ((step.effect reader (texts.stage reader settings n)).after
          (texts.stage reader settings n)) := fun n step hs =>
    PatchStep.follow_not_data h.grammatical (h.uniform_stage n)
      fun _ _ => Recipe.setupChange_of_find hs
  have h2 := hone 1 (Recipe.environmentConfig settings.project settings.firebase)
    (by simp [recipe, Recipe.firebase])
  have h3 := hone 2 (Recipe.importEnvironment settings.project)
    (by simp [recipe, Recipe.firebase])
  have h4 := hone 3 (Recipe.importAngularFire settings.project)
    (by simp [recipe, Recipe.firebase])
  have h5 := hone 4 (Recipe.registerAngularFire settings.project)
    (by simp [recipe, Recipe.firebase])
  exact ((h2.trans (fun _ hk => hk) h3).trans (fun _ hk => hk) h4).trans (fun _ hk => hk) h5

/-- The configuration is kept by the steps after it. -/
theorem keeps_field :
    Texts.Keeps reader (fun file => file.objectHasKey (some "environment") "firebase")
      (texts.stage reader settings 2) (texts.stage reader settings 5) := by
  have hone : ∀ (n : Nat) (step : PatchStep), .patch step ∈ recipe settings →
      (∀ target change, step.change.find (texts.stage reader settings n) target = .ok change →
        ∀ options : FirebaseOptions,
          change ≠ .appendField (some "environment") "firebase" options.entries) →
      Texts.Keeps reader (fun file => file.objectHasKey (some "environment") "firebase")
        (texts.stage reader settings n) ((step.effect reader (texts.stage reader settings n)).after
          (texts.stage reader settings n)) := fun n step hs hother =>
    PatchStep.keeps_field h.grammatical (h.uniform_stage n)
      (fun _ _ => Recipe.setupChange_of_find hs) hother
  have h3 := hone 2 (Recipe.importEnvironment settings.project)
    (by simp [recipe, Recipe.firebase]) (by
    intro target change hc
    obtain ⟨environment, -, -, rfl⟩ := Recipe.change_importEnvironment settings.project hc
    nofun)
  have h4 := hone 3 (Recipe.importAngularFire settings.project)
    (by simp [recipe, Recipe.firebase]) (by
    intro target change hc
    obtain rfl := Except.ok.inj hc
    nofun)
  have h5 := hone 4 (Recipe.registerAngularFire settings.project)
    (by simp [recipe, Recipe.firebase]) (by
    intro target change hc
    obtain rfl := Except.ok.inj hc
    nofun)
  exact (Texts.Keeps.trans h3 h4).trans h5

theorem keeps_root_four : Texts.Keeps reader SourceFile.rootModule
    (texts.stage reader settings 3) (texts.stage reader settings 4) :=
  Recipe.keeps_root_importAngularFire settings.project h.grammatical (h.uniform_stage 3)

theorem keeps_root_five : Texts.Keeps reader SourceFile.rootModule
    (texts.stage reader settings 4) (texts.stage reader settings 5) :=
  Recipe.keeps_root_registerAngularFire settings.project h.grammatical (h.uniform_stage 4)

/-- The import of the environment is kept by the steps after it. -/
theorem keeps_environment : Texts.Keeps reader (fun file => file.importBinds "environment")
    (texts.stage reader settings 3) (texts.stage reader settings 5) := by
  have h4 : Texts.Keeps reader (fun file => file.importBinds "environment")
      (texts.stage reader settings 3) (texts.stage reader settings 4) :=
    Recipe.keeps_imports_importAngularFire settings.project h.grammatical (h.uniform_stage 3)
  have h5 : Texts.Keeps reader SourceFile.importBinds
      (texts.stage reader settings 4) (texts.stage reader settings 5) :=
    Recipe.keeps_imports_registerAngularFire settings.project h.grammatical (h.uniform_stage 4)
  exact h4.trans (h5.comp fun binds : String → String → Bool => binds "environment")

/-- The import of the package is kept by the registration. -/
theorem keeps_package :
    Texts.Keeps reader (fun file => file.importBinds "AngularFireModule" "@angular/fire")
      (texts.stage reader settings 4) (texts.stage reader settings 5) := by
  have h5 : Texts.Keeps reader SourceFile.importBinds
      (texts.stage reader settings 4) (texts.stage reader settings 5) :=
    Recipe.keeps_imports_registerAngularFire settings.project h.grammatical (h.uniform_stage 4)
  exact h5.comp fun binds : String → String → Bool => binds "AngularFireModule" "@angular/fire"

end FirstRun

end Codemod
