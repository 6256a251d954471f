import Codemod.Proofs.FirstRuns

/-!
When a second run does something.

After a first run that no step stopped, every step of a second run rests, but for three lapses. The
configuration may have been found only as text in the file of the environment, which a later step
has changed. The import of the environment may be written with an escape, which is then not taken
for what it stands for. And that import may give the bootstrapped name an origin, so that another
file is the root module from then on.
-/
namespace Codemod

open Source Node
open SetupOutcome (recipe)

/-- What makes a second run do something. -/
inductive Relapse (reader : TreeReader) (settings : SetupSettings) (texts : Texts) : Prop where
  /-- The environment has no field with the configuration. Its step took a text for it, or did not
  get the field in; now, with the file as later steps have left it, it does. -/
  | uncovered {environment : Path} {file last : SourceFile}
    (configured : settings.project.environment = some environment)
    (before : (texts.stage reader settings 2).source reader environment = .ok file)
    (lacks : file.objectHasKey (some "environment") "firebase" = false)
    (covered : file.containsText (renderField "firebase" settings.firebase.entries) = true ∨
      (Recipe.environmentConfig settings.project settings.firebase).effect reader
        (texts.stage reader settings 2) = .fails)
    (after : (texts.stage reader settings 5).source reader environment = .ok last)
    (bare : last.containsText (renderField "firebase" settings.firebase.entries) = false)
    (fits : (Recipe.environmentConfig settings.project settings.firebase).effect reader
      (texts.stage reader settings 5) ≠ .fails)
  /-- The import of the environment was written as a statement of its own, with an escape in its
  specifier. -/
  | quoted {environment root root' : Path} {text : String} {file : SourceFile}
    (configured : settings.project.environment = some environment)
    (wrote : (Recipe.importEnvironment settings.project).effect reader
      (texts.stage reader settings 2) = .write root text)
    (source : (texts.stage reader settings 2).source reader root = .ok file)
    (statement : file.anchor? (.namedImportsOf (specifierTo root environment)) = none)
    (escape : ∃ c ∈ (specifierTo root environment).toList, Text.isVerbatim c = false)
    (stays : (TargetFile.rootModuleOf settings.project.main).find reader
      (texts.stage reader settings 3) = .ok root')
    (same : root.same root' = true)
  /-- With the import of the environment another file has become the root module, and there is no
  such import in it. -/
  | moved {environment root root' : Path} {text : String} {file : SourceFile}
    (configured : settings.project.environment = some environment)
    (wrote : (Recipe.importEnvironment settings.project).effect reader
      (texts.stage reader settings 2) = .write root text)
    (moves : (TargetFile.rootModuleOf settings.project.main).find reader
      (texts.stage reader settings 3) = .ok root')
    (other : root.same root' = false)
    (source : (texts.stage reader settings 3).source reader root' = .ok file)
    (lacks : file.importBinds "environment" (specifierTo root' environment) = false)

/-- The place of an import is in a list exactly if there is a list. -/
theorem SourceFile.kind_locate_import {file : SourceFile} {identifier module : String}
    {anchor : Anchor} (h : file.locate (.insertImport identifier module) = .ok anchor) :
    anchor.kind = .namedImportsClose ↔ file.anchor? (.namedImportsOf module) ≠ none := by
  simp only [locate] at h
  cases hf : file.anchor? (.namedImportsOf module) with
  | some found =>
    rw [hf] at h
    obtain rfl := Except.ok.inj h
    obtain ⟨named, -, ha⟩ := Option.bind_eq_some_iff.1 hf
    simp [kind_of_closeAnchor ha]
  | none =>
    rw [hf] at h
    obtain rfl := Option.some.inj (findAnchor_eq_ok h)
    simp [kind_importAnchor]

namespace FirstRun

variable {reader : TreeReader} {settings : SetupSettings} {texts : Texts}
  (h : FirstRun reader settings texts)

include h

theorem rests_dependencies :
    (RecipeStep.declare (Recipe.packageDependencies settings.project settings.versions)).Rests
      reader (texts.stage reader settings 5) := by
  rw [RecipeStep.rests_of_warn rfl]
  have hfirst := ManifestStep.isWrite_again reader texts
    (Recipe.packageDependencies settings.project settings.versions)
  cases hm : settings.project.manifest with
  | none => simp [RecipeStep.effect, ManifestStep.effect, Recipe.packageDependencies, hm,
      Effect.isWrite]
  | some path =>
    rcases h.follow_not_data path with he | ⟨file, file', -, hf', hd⟩
    · have heffect : (Recipe.packageDependencies settings.project settings.versions).effect reader
          (texts.stage reader settings 5) =
          (Recipe.packageDependencies settings.project settings.versions).effect reader
            (texts.stage reader settings 1) := by
        apply ManifestStep.effect_eq_of_text
        intro found hfound
        obtain rfl := Option.some.inj (hm.symm.trans hfound)
        exact he
      rw [RecipeStep.effect, heffect]
      exact hfirst
    · exact ManifestStep.isWrite_of_program hm hf' hd

/-- What was configured is not configured again right away. -/
theorem isWrite_config_again :
    ((Recipe.environmentConfig settings.project settings.firebase).effect reader
      (texts.stage reader settings 2)).isWrite = false := by
  have hstage : texts.stage reader settings 2 =
      ((Recipe.environmentConfig settings.project settings.firebase).effect reader
        (texts.stage reader settings 1)).after (texts.stage reader settings 1) := rfl
  cases he : (Recipe.environmentConfig settings.project settings.firebase).effect reader
      (texts.stage reader settings 1) with
  | present | missing | fails =>
    rw [he] at hstage
    have hsame : texts.stage reader settings 2 = texts.stage reader settings 1 := hstage
    rw [hsame, he]
    rfl
  | write target text =>
    obtain ⟨change, anchor, file, file', hw, rfl⟩ := PatchStep.exists_wrote he
    rw [he] at hstage
    obtain rfl := Except.ok.inj hw.chosen
    obtain ⟨piece, hb⟩ := hw.brings
    have hkey := (hb.of_field h.grammatical hw.isRead).1
    have hsource : (texts.stage reader settings 2).source reader target = .ok file' := by
      rw [hstage]
      exact hw.after
    have hp : file'.isPresent (.appendField (some "environment") "firebase"
        settings.firebase.entries) = true := by simp [SourceFile.isPresent, hkey]
    have hfound := TargetFile.find_file_iff.1 hw.found
    have hpresent : (Recipe.environmentConfig settings.project settings.firebase).effect reader
        (texts.stage reader settings 2) = .present :=
      PatchStep.effect_of_present (TargetFile.find_file_iff.2 hfound) rfl hsource hp
    rw [hpresent]
    rfl

/-- The configuration is left alone, unless it is uncovered. -/
theorem rests_config_of_not_relapse (hn : ¬ Relapse reader settings texts) :
    (RecipeStep.patch (Recipe.environmentConfig settings.project settings.firebase)).Rests
      reader (texts.stage reader settings 5) := by
  rw [RecipeStep.rests_of_warn rfl, RecipeStep.effect]
  cases he : (Recipe.environmentConfig settings.project settings.firebase).effect reader
      (texts.stage reader settings 5) with
  | present | missing | fails => rfl
  | write target text =>
    obtain ⟨change, anchor, last, last', hw, rfl⟩ := PatchStep.exists_wrote he
    have hfound := TargetFile.find_file_iff.1 hw.found
    obtain rfl := Except.ok.inj hw.chosen
    have habsent := hw.absent
    simp only [SourceFile.isPresent, Bool.or_eq_false_iff] at habsent
    rcases h.keeps_field target with htext | ⟨file, found, hf, hfound', hk⟩
    · -- With the same text the step does what it did right after the first time.
      have hagain := h.isWrite_config_again
      have hsame : (Recipe.environmentConfig settings.project settings.firebase).effect reader
          (texts.stage reader settings 5) =
          (Recipe.environmentConfig settings.project settings.firebase).effect reader
            (texts.stage reader settings 2) :=
        PatchStep.effect_eq_of_text (congrArg TargetFile.file hfound) rfl htext
      rw [← hsame, he] at hagain
      cases hagain
    · obtain rfl := Except.ok.inj (hw.source.symm.trans hfound')
      have hlacks : file.objectHasKey (some "environment") "firebase" = false :=
        hk.symm.trans habsent.1
      refine absurd (Relapse.uncovered hfound hf hlacks ?_ hw.source habsent.2 ?_) hn
      · cases hc : file.containsText (renderField "firebase" settings.firebase.entries) with
        | true => exact .inl rfl
        | false =>
          have hp : file.isPresent (.appendField (some "environment") "firebase"
              settings.firebase.entries) = false := by simp [SourceFile.isPresent, hlacks, hc]
          have heffect : ((Recipe.environmentConfig settings.project settings.firebase).effect reader
              (texts.stage reader settings 2)).isWrite = true ∨
              (Recipe.environmentConfig settings.project settings.firebase).effect reader
                (texts.stage reader settings 2) = .fails :=
            PatchStep.effect_of_absent rfl (TargetFile.find_file_iff.2 hfound) rfl hf hp
          rcases heffect with hwrite | hfails
          · rw [h.isWrite_config_again] at hwrite
            cases hwrite
          · exact .inr hfails
      · rw [he]
        nofun

theorem effect_environment_ne_fails :
    (Recipe.importEnvironment settings.project).effect reader (texts.stage reader settings 2) ≠
      .fails := by
  obtain ⟨-, -, hstep, -⟩ := h.complete
  intro he
  apply hstep
  change ((Recipe.importEnvironment settings.project).effect reader
    (texts.stage reader settings 2)).outcome .abort = .failed
  rw [he]
  rfl

/-- An import of the environment that was not written then is not written now. -/
theorem rests_environment_of_not_wrote
    (hw : ((Recipe.importEnvironment settings.project).effect reader
      (texts.stage reader settings 2)).isWrite = false) :
    (RecipeStep.patch (Recipe.importEnvironment settings.project)).Rests reader
      (texts.stage reader settings 5) := by
  have hstage : texts.stage reader settings 3 = texts.stage reader settings 2 :=
    Effect.after_of_not_write hw _
  have hroot := h.keeps_root_four.trans h.keeps_root_five
  have hkeeps := h.keeps_environment
  rw [hstage] at hroot hkeeps
  have he : (Recipe.importEnvironment settings.project).effect reader
      (texts.stage reader settings 5) = (Recipe.importEnvironment settings.project).effect reader
        (texts.stage reader settings 2) := by
    refine PatchStep.effect_eq_of_keeps rfl (TargetFile.find_of_keeps _ hroot)
      (ChangeSpec.find_of_follow hkeeps _) ?_ hw h.effect_environment_ne_fails
    intro target change hc
    obtain ⟨environment, -, -, rfl⟩ := Recipe.change_importEnvironment settings.project hc
    exact hkeeps.comp fun binds : String → Bool => binds (specifierTo target environment)
  rw [RecipeStep.rests_of_abort rfl, RecipeStep.effect, he]
  exact ⟨hw, h.effect_environment_ne_fails⟩

/-- Once there is a root module and a file of it, the import is looked for in it. -/
theorem rests_environment_iff {environment root : Path} {file : SourceFile}
    (hconfigured : settings.project.environment = some environment)
    (hsome : (texts.stage reader settings 2 environment).isSome = true)
    (hroot : (TargetFile.rootModuleOf settings.project.main).find reader
      (texts.stage reader settings 3) = .ok root)
    (hf : (texts.stage reader settings 3).source reader root = .ok file) :
    (RecipeStep.patch (Recipe.importEnvironment settings.project)).Rests reader
      (texts.stage reader settings 5) ↔
      file.importBinds "environment" (specifierTo root environment) = true := by
  have hfound := (TargetFile.find_of_keeps settings.project.main
    (h.keeps_root_four.trans h.keeps_root_five)).trans hroot
  have hchange : (Recipe.importEnvironment settings.project).change.find
      (texts.stage reader settings 5) root =
      .ok (.insertImport "environment" (specifierTo root environment)) := by
    have hlater := h.keeps_field.isSome environment
    rw [hsome] at hlater
    simp [Recipe.importEnvironment, hconfigured, ChangeSpec.find, hlater]
  obtain ⟨last, hlast, hk⟩ := h.keeps_environment.source hf
  rw [PatchStep.rests_iff_isPresent rfl rfl hfound hchange hlast, ← hk]
  rfl

section wrote

variable {root : Path} {text : String}
  (he : (Recipe.importEnvironment settings.project).effect reader (texts.stage reader settings 2) =
    .write root text)

include he

/-- Where the import went, it is recognised if it is in a list or written as it is. -/
theorem exists_source_of_wrote {environment : Path}
    (hconfigured : settings.project.environment = some environment) :
    (texts.stage reader settings 2 environment).isSome = true ∧
    ∃ file file', (texts.stage reader settings 2).source reader root = .ok file ∧
      (texts.stage reader settings 3).source reader root = .ok file' ∧
      (file'.importBinds "environment" (specifierTo root environment) = true ↔
        file.anchor? (.namedImportsOf (specifierTo root environment)) ≠ none ∨
        ∀ c ∈ (specifierTo root environment).toList, Text.isVerbatim c = true) := by
  obtain ⟨change, anchor, file, file', hw, rfl⟩ := PatchStep.exists_wrote he
  obtain ⟨found, hfound, hsome, rfl⟩ :=
    Recipe.change_importEnvironment settings.project hw.chosen
  obtain rfl := Option.some.inj (hconfigured.symm.trans hfound)
  have hstage : texts.stage reader settings 3 =
      ((Recipe.importEnvironment settings.project).effect reader
        (texts.stage reader settings 2)).after (texts.stage reader settings 2) := rfl
  rw [he] at hstage
  refine ⟨hsome, file, file', hw.source, ?_, ?_⟩
  · rw [hstage]
    exact hw.after
  · obtain ⟨piece, hb⟩ := hw.brings
    rw [hb.importBinds_import_self h.grammatical hw.isRead (.environment _) hw.absent,
      SourceFile.kind_locate_import hb.place, sameModule_escaped_iff]

/-- There is a root module still. -/
theorem exists_root_of_wrote : ∃ root', (TargetFile.rootModuleOf settings.project.main).find reader
    (texts.stage reader settings 3) = .ok root' := by
  obtain ⟨change, anchor, file, file', hw, -⟩ := PatchStep.exists_wrote he
  have hfollow : Texts.Follow reader (fun _ _ => True) (texts.stage reader settings 2)
      (texts.stage reader settings 3) :=
    PatchStep.follow_effect (h.uniform_stage 2) (fun _ _ _ hk => hk) fun _ => trivial
  have hfound := hw.found
  simp only [Recipe.importEnvironment, TargetFile.find] at hfound ⊢
  cases hmain : (texts.stage reader settings 2).source reader settings.project.main with
  | error error =>
    rw [hmain] at hfound
    cases hfound
  | ok main =>
    obtain ⟨main', hmain', -⟩ := hfollow.source (fun _ => trivial) hmain
    exact ⟨main'.rootModule.getD settings.project.main, by rw [hmain']⟩

end wrote

/-- A root module that cannot be read is missing, so there is nothing to import into. -/
theorem rests_environment_of_error {environment root : Path} {error : EditError}
    (hconfigured : settings.project.environment = some environment)
    (hsome : (texts.stage reader settings 2 environment).isSome = true)
    (hroot : (TargetFile.rootModuleOf settings.project.main).find reader
      (texts.stage reader settings 3) = .ok root)
    (hf : (texts.stage reader settings 3).source reader root = .error error) :
    (RecipeStep.patch (Recipe.importEnvironment settings.project)).Rests reader
      (texts.stage reader settings 5) := by
  have hskips : (StepError.edit error).skipsStep = true := by
    obtain ⟨-, -, -, hstep, -⟩ := h.complete
    cases hs : (StepError.edit error).skipsStep with
    | true => rfl
    | false =>
      refine absurd ?_ hstep
      change ((Recipe.importAngularFire settings.project).effect reader
        (texts.stage reader settings 3)).outcome .abort = .failed
      have heffect : (Recipe.importAngularFire settings.project).effect reader
          (texts.stage reader settings 3) = .ofError (.edit error) := by
        simp only [PatchStep.effect, Recipe.importAngularFire, hroot, ChangeSpec.find, hf]
      simp [heffect, Effect.ofError, hs, Effect.outcome, FailurePolicy.outcome]
  have hfound := (TargetFile.find_of_keeps settings.project.main
    (h.keeps_root_four.trans h.keeps_root_five)).trans hroot
  have hlast := h.keeps_environment.error hf
  have hlater := h.keeps_field.isSome environment
  rw [hsome] at hlater
  have heffect : (Recipe.importEnvironment settings.project).effect reader
      (texts.stage reader settings 5) = .missing := by
    simp [PatchStep.effect, Recipe.importEnvironment, hfound, hconfigured, ChangeSpec.find, hlater,
      hlast, Effect.ofError, hskips]
  rw [RecipeStep.rests_of_abort rfl, RecipeStep.effect, heffect]
  refine ⟨rfl, ?_⟩
  intro hfails
  cases hfails

/-- The import of the environment is left alone, unless it is quoted or the root module has
moved. -/
theorem rests_environment_of_not_relapse (hn : ¬ Relapse reader settings texts) :
    (RecipeStep.patch (Recipe.importEnvironment settings.project)).Rests reader
      (texts.stage reader settings 5) := by
  cases he : (Recipe.importEnvironment settings.project).effect reader
      (texts.stage reader settings 2) with
  | present | missing | fails => exact h.rests_environment_of_not_wrote (by rw [he]; rfl)
  | write root text =>
    have hconfigured : ∃ environment, settings.project.environment = some environment := by
      obtain ⟨change, anchor, file, file', hw, -⟩ := PatchStep.exists_wrote he
      obtain ⟨environment, hfound, -⟩ := Recipe.change_importEnvironment settings.project hw.chosen
      exact ⟨environment, hfound⟩
    obtain ⟨environment, hconfigured⟩ := hconfigured
    obtain ⟨hsome, file, file', hf, hf', hbinds⟩ := h.exists_source_of_wrote he hconfigured
    obtain ⟨root', hroot⟩ := h.exists_root_of_wrote he
    cases hs : root.same root' with
    | true =>
      have hsource := Texts.source_spelledAs (h.uniform_stage 3) hs hf'
      rw [h.rests_environment_iff hconfigured hsome hroot hsource]
      rw [← specifierTo_congr hs]
      refine hbinds.2 ?_
      cases hanchor : file.anchor? (.namedImportsOf (specifierTo root environment)) with
      | some anchor => exact .inl nofun
      | none =>
        refine .inr fun c hc => ?_
        cases hv : Text.isVerbatim c with
        | true => rfl
        | false => exact absurd (.quoted hconfigured he hf hanchor ⟨c, hc, hv⟩ hroot hs) hn
    | false =>
      cases hsource : (texts.stage reader settings 3).source reader root' with
      | error error => exact h.rests_environment_of_error hconfigured hsome hroot hsource
      | ok moved =>
        rw [h.rests_environment_iff hconfigured hsome hroot hsource]
        cases hb : moved.importBinds "environment" (specifierTo root' environment) with
        | true => rfl
        | false => exact absurd (.moved hconfigured he hroot hs hsource hb) hn

/-- The import of the package is always recognised. -/
theorem rests_package :
    (RecipeStep.patch (Recipe.importAngularFire settings.project)).Rests reader
      (texts.stage reader settings 5) := by
  have hroot := h.keeps_root_four.trans h.keeps_root_five
  cases he : (Recipe.importAngularFire settings.project).effect reader
      (texts.stage reader settings 3) with
  | write root text =>
    obtain ⟨change, anchor, file, file', hw, rfl⟩ := PatchStep.exists_wrote he
    obtain rfl := Except.ok.inj hw.chosen
    obtain ⟨piece, hb⟩ := hw.brings
    have hstage : texts.stage reader settings 4 =
        ((Recipe.importAngularFire settings.project).effect reader
          (texts.stage reader settings 3)).after (texts.stage reader settings 3) := rfl
    rw [he] at hstage
    have hsource : (texts.stage reader settings 4).source reader root = .ok file' := by
      rw [hstage]
      exact hw.after
    have hbinds : file'.importBinds "AngularFireModule" "@angular/fire" = true := by
      rw [hb.importBinds_import_self h.grammatical hw.isRead .package hw.absent]
      exact .inr (by decide)
    obtain ⟨last, hlast, hk⟩ := h.keeps_package.source hsource
    have hfound := (TargetFile.find_of_keeps settings.project.main hroot).trans hw.found
    rw [PatchStep.rests_iff_isPresent rfl rfl hfound rfl hlast]
    exact hk.trans hbinds
  | present | missing | fails =>
    have hw : ((Recipe.importAngularFire settings.project).effect reader
        (texts.stage reader settings 3)).isWrite = false := by
      rw [he]
      rfl
    have hn : (Recipe.importAngularFire settings.project).effect reader
        (texts.stage reader settings 3) ≠ .fails := by
      obtain ⟨-, -, -, hstep, -⟩ := h.complete
      intro hf
      apply hstep
      change ((Recipe.importAngularFire settings.project).effect reader
        (texts.stage reader settings 3)).outcome .abort = .failed
      rw [hf]
      rfl
    have hstage : texts.stage reader settings 4 = texts.stage reader settings 3 :=
      Effect.after_of_not_write hw _
    have hkeeps := h.keeps_package
    rw [hstage] at hkeeps
    have heffect : (Recipe.importAngularFire settings.project).effect reader
        (texts.stage reader settings 5) = (Recipe.importAngularFire settings.project).effect reader
          (texts.stage reader settings 3) := by
      refine PatchStep.effect_eq_of_keeps rfl (TargetFile.find_of_keeps _ hroot)
        (ChangeSpec.find_of_follow hkeeps _) ?_ hw hn
      intro target change hc
      obtain rfl := Except.ok.inj hc
      exact hkeeps
    rw [RecipeStep.rests_of_abort rfl, RecipeStep.effect, heffect]
    exact ⟨hw, hn⟩

/-- What was registered is found where it was registered. -/
theorem rests_registration :
    (RecipeStep.patch (Recipe.registerAngularFire settings.project)).Rests reader
      (texts.stage reader settings 5) := by
  have hstage : texts.stage reader settings 5 =
      ((Recipe.registerAngularFire settings.project).effect reader
        (texts.stage reader settings 4)).after (texts.stage reader settings 4) := rfl
  cases he : (Recipe.registerAngularFire settings.project).effect reader
      (texts.stage reader settings 4) with
  | write root text =>
    obtain ⟨change, anchor, file, file', hw, rfl⟩ := PatchStep.exists_wrote he
    obtain rfl := Except.ok.inj hw.chosen
    obtain ⟨piece, hb⟩ := hw.brings
    rw [he] at hstage
    have hsource : (texts.stage reader settings 5).source reader root = .ok file' := by
      rw [hstage]
      exact hw.after
    have hp := hb.callRegisters_registration h.grammatical hw.isRead .registration
    have hfound :=
      (TargetFile.find_of_keeps settings.project.main h.keeps_root_five).trans hw.found
    have heffect : (Recipe.registerAngularFire settings.project).effect reader
        (texts.stage reader settings 5) = .present :=
      PatchStep.effect_of_present hfound rfl hsource hp
    rw [RecipeStep.rests_of_abort rfl, RecipeStep.effect, heffect]
    exact ⟨rfl, nofun⟩
  | present | missing | fails =>
    have hw : ((Recipe.registerAngularFire settings.project).effect reader
        (texts.stage reader settings 4)).isWrite = false := by
      rw [he]
      rfl
    obtain ⟨-, -, -, -, hstep, -⟩ := h.complete
    rw [hstage, Effect.after_of_not_write hw]
    exact RecipeStep.rests_of_complete hw hstep

/-- After a first run that no step stopped, every step rests unless there is a relapse. -/
theorem rests_iff : (∀ step ∈ recipe settings, step.Rests reader (texts.stage reader settings 5)) ↔
    ¬ Relapse reader settings texts := by
  constructor
  · intro hrests hrelapse
    cases hrelapse with
    | uncovered hconfigured hbefore hlacks hcovered hafter hbare hfits =>
      obtain ⟨last, hlast, hk⟩ := h.keeps_field.source hbefore
      obtain rfl := Except.ok.inj (hlast.symm.trans hafter)
      have hp : last.isPresent (.appendField (some "environment") "firebase"
          settings.firebase.entries) = false := by
        have hlater : last.objectHasKey (some "environment") "firebase" = false := hk.trans hlacks
        simp [SourceFile.isPresent, hlater, hbare]
      have hstep := hrests (.patch (Recipe.environmentConfig settings.project settings.firebase))
        (by simp [recipe, Recipe.firebase])
      rw [RecipeStep.rests_of_warn rfl, RecipeStep.effect] at hstep
      have heffect : ((Recipe.environmentConfig settings.project settings.firebase).effect reader
          (texts.stage reader settings 5)).isWrite = true ∨
          (Recipe.environmentConfig settings.project settings.firebase).effect reader
            (texts.stage reader settings 5) = .fails :=
        PatchStep.effect_of_absent rfl (TargetFile.find_file_iff.2 hconfigured) rfl hlast hp
      rcases heffect with hwrite | hfails
      · rw [hwrite] at hstep
        cases hstep
      · exact hfits hfails
    | quoted hconfigured hwrote hsource hstatement hescape hstays hsame =>
      obtain ⟨hsome, file, file', hf, hf', hbinds⟩ := h.exists_source_of_wrote hwrote hconfigured
      obtain rfl := Except.ok.inj (hf.symm.trans hsource)
      have hlater := Texts.source_spelledAs (h.uniform_stage 3) hsame hf'
      have hstep := hrests (.patch (Recipe.importEnvironment settings.project))
        (by simp [recipe, Recipe.firebase])
      rw [h.rests_environment_iff hconfigured hsome hstays hlater, ← specifierTo_congr hsame] at hstep
      rcases hbinds.1 hstep with hlist | hverbatim
      · exact hlist hstatement
      · obtain ⟨c, hc, hv⟩ := hescape
        rw [hverbatim c hc] at hv
        cases hv
    | moved hconfigured hwrote hmoves hother hsource hlacks =>
      obtain ⟨hsome, -⟩ := h.exists_source_of_wrote hwrote hconfigured
      have hstep := hrests (.patch (Recipe.importEnvironment settings.project))
        (by simp [recipe, Recipe.firebase])
      rw [h.rests_environment_iff hconfigured hsome hmoves hsource, hlacks] at hstep
      cases hstep
  · intro hn step hstep
    simp only [recipe, Recipe.firebase, List.mem_cons, List.not_mem_nil, or_false] at hstep
    rcases hstep with rfl | rfl | rfl | rfl | rfl
    · exact h.rests_dependencies
    · exact h.rests_config_of_not_relapse hn
    · exact h.rests_environment_of_not_relapse hn
    · exact h.rests_package
    · exact h.rests_registration

end FirstRun

namespace SingleImport

def line : String := "import \x7b AngularFireModule \x7d from \x27@angular/fire\x27;\n"

def token (grammar : String) (start stop : Nat) : Node := .ofGrammar grammar start stop []

def statement : Node :=
  .ofGrammar "import_statement" 0 50
    [token "import" 0 6,
      .ofGrammar "import_clause" 7 28
        [.ofGrammar "named_imports" 7 28
          [token "\x7b" 7 8,
            .ofGrammar "import_specifier" 9 26 [(token "identifier" 9 26).filling "name"],
            token "\x7d" 27 28]],
      token "from" 29 33,
      Node.filling "source" (.ofGrammar "string" 34 49
        [token "\x27" 34 35, token "string_fragment" 35 48, token "\x27" 48 49]),
      token ";" 49 50]

def reader : TreeReader := fun _ text =>
  if text = "" then some (.ofGrammar "program" 0 0 [])
  else if text = line then some (.ofGrammar "program" 0 51 [statement])
  else none

/-- What is read is one of the two texts. -/
theorem cases_isRead {file : SourceFile} (h : file.IsRead reader) :
    (file.text = "" ∧ file.root = .ofGrammar "program" 0 0 []) ∨
      (file.text = line ∧ file.root = .ofGrammar "program" 0 51 [statement]) := by
  simp only [SourceFile.IsRead, reader] at h
  split at h
  · rename_i ht
    exact .inl ⟨ht, (Option.some.inj h).symm⟩
  · split at h
    · rename_i ht
      exact .inr ⟨ht, (Option.some.inj h).symm⟩
    · cases h

theorem nodes_of_isRead {file : SourceFile} (h : file.IsRead reader) :
    ∀ node ∈ file.nodes, node ∈ within [statement] := by
  intro node hn
  rcases cases_isRead h with ⟨-, hroot⟩ | ⟨-, hroot⟩
  · rw [SourceFile.nodes, hroot] at hn
    cases hn
  · rw [SourceFile.nodes, hroot] at hn
    exact hn

def emptyFile : SourceFile := ⟨⟨"main.ts"⟩, .typeScript, "", .ofGrammar "program" 0 0 []⟩

def lineFile : SourceFile := ⟨⟨"main.ts"⟩, .typeScript, line, .ofGrammar "program" 0 51 [statement]⟩

theorem regular_of_isRead {file : SourceFile} (h : file.IsRead reader) : file.Regular := by
  have hempty : emptyFile.Regular := by decide +kernel
  have hline : lineFile.Regular := by decide +kernel
  rcases cases_isRead h with ⟨ht, hroot⟩ | ⟨ht, hroot⟩
  · exact hempty.congr ht hroot
  · exact hline.congr ht hroot

/-- An import adds a text to the empty one, and it is the text that is read. -/
theorem layout_of_brings {identifier module : String} {anchor : Anchor} {piece : String}
    {file file' : SourceFile} (hread : file.IsRead reader)
    (hb : file.Brings reader (.insertImport identifier module) anchor piece file') :
    file.text = "" ∧ file.root = .ofGrammar "program" 0 0 [] ∧ file'.text = line ∧
      file'.root = .ofGrammar "program" 0 51 [statement] ∧ anchor.kind = .documentStart ∧
      renderImport identifier module ++ "\n" = line := by
  have hline : line.toList.head? = some 'i' := by decide +kernel
  have hlength : file'.text.toList.length = file.text.toList.length + piece.toList.length := by
    obtain ⟨x, y, hs, -, hs'⟩ := Text.insertAt?_eq_some_iff.1 hb.text
    rw [hs, hs', String.toList_ofList]
    simp only [List.length_append]
    omega
  have hpiece : (anchor.kind = .documentStart ∧ piece = renderImport identifier module ++ "\n") ∨
      (piece.toList.length ≠ 0 ∧ piece.toList.head? ≠ some 'i') := by
    have hlayout := hb.layout
    simp only [SourceFile.insertionText] at hlayout
    split at hlayout
    · obtain rfl := Except.ok.inj hlayout
      refine .inr ?_
      rw [String.toList_append]
      split <;> simp
    · obtain rfl := Except.ok.inj hlayout
      refine .inr ?_
      rw [String.toList_append]
      simp
    · rename_i hk
      exact .inl ⟨hk, (Except.ok.inj hlayout).symm⟩
    · cases hlayout
  have hsome : piece.toList.length ≠ 0 := by
    rcases hpiece with ⟨-, rfl⟩ | ⟨hp, -⟩
    · rw [String.toList_append]
      simp
    · exact hp
  rcases cases_isRead hread with ⟨ht, hroot⟩ | ⟨ht, hroot⟩
  · rcases cases_isRead hb.read with ⟨ht', hroot'⟩ | ⟨ht', hroot'⟩
    · rw [ht, ht'] at hlength
      simp at hlength
      omega
    · have hwhole : piece = line := by
        obtain ⟨x, y, hs, -, hs'⟩ := Text.insertAt?_eq_some_iff.1 hb.text
        rw [ht] at hs
        obtain ⟨rfl, rfl⟩ := List.append_eq_nil_iff.1 hs.symm
        rw [← ht', hs']
        simp
      rcases hpiece with ⟨hk, hp⟩ | ⟨-, hp⟩
      · exact ⟨ht, hroot, ht', hroot', hk, hp.symm.trans hwhole⟩
      · rw [hwhole] at hp
        exact absurd hline hp
  · rcases cases_isRead hb.read with ⟨ht', -⟩ | ⟨ht', -⟩
    · rw [ht, ht'] at hlength
      simp at hlength
      omega
    · rw [ht, ht'] at hlength
      omega

/-- The statement is the import of the package. -/
theorem isImport_statement {file : SourceFile} (ht : file.text = line) :
    file.IsImport "AngularFireModule" "@angular/fire" statement where
  kind := by decide
  plain := by decide
  source := by
    refine ⟨Node.filling "source" (.ofGrammar "string" 34 49
      [token "\x27" 34 35, token "string_fragment" 35 48, token "\x27" 48 49]), rfl, ?_⟩
    rw [SourceFile.textOf, ht]
    decide +kernel
  clause := by
    refine ⟨_, _, .ofGrammar "import_specifier" 9 26 [(token "identifier" 9 26).filling "name"],
      rfl, rfl, rfl, rfl, rfl, by decide, _, rfl, ?_⟩
    rw [SourceFile.textOf, ht]
    decide +kernel

theorem grammatical_reader : reader.Grammatical where
  regular := regular_of_isRead
  data := by
    intro file json hread hj
    rcases cases_isRead hread with ⟨-, hroot⟩ | ⟨ht, -⟩
    · rw [SourceFile.nodes, hroot]
      nofun
    · have hno : (Json.read line).isOk = false := by decide +kernel
      rw [ht] at hj
      rw [hj] at hno
      cases hno
  grows := by
    intro change anchor piece file file' hs hread hb
    have hmem := nodes_of_isRead hread
    have hkinds : ∀ node ∈ within [statement], node.kind ≠ .objectLiteral ∧ node.kind ≠ .call := by
      decide +kernel
    cases hs with
    | field options =>
      obtain ⟨object, ho, -⟩ := SourceFile.locate_field hb.place
      obtain ⟨hn, hk⟩ := Growth.Carries.mem_declaredObject ho
      exact absurd hk (hkinds object (hmem object hn)).1
    | environment module =>
      obtain ⟨-, -, -, -, -, hline⟩ := layout_of_brings hread hb
      have hnine : (renderImport "environment" module ++ "\n").toList[9]? = some 'e' := by
        have hlead : "import \x7b ".toList =
            ['i', 'm', 'p', 'o', 'r', 't', ' ', '\x7b', ' '] := by decide
        have hname : "environment".toList = 'e' :: "nvironment".toList := by decide
        unfold renderImport
        simp only [String.toList_append, String.toList_ofList, hlead, hname, List.append_assoc,
          List.cons_append, List.nil_append, List.getElem?_cons_succ, List.getElem?_cons_zero]
      rw [hline] at hnine
      exact absurd hnine (by decide +kernel)
    | package =>
      obtain ⟨-, hroot, ht', hroot', hk, -⟩ := layout_of_brings hread hb
      refine ⟨[statement], ⟨hb.path, hb.text, ?_, ?_⟩, ⟨[], statement, rfl, nofun, ?_⟩, ?_⟩
      · rw [hroot, hroot']
        rfl
      · rw [hroot, hroot']
        rfl
      · rw [hk]
        exact isImport_statement ht'
      · exact fun inner hi hc => absurd hc (hkinds inner hi).2
    | registration =>
      obtain ⟨call, object, hc, ho, -⟩ := SourceFile.locate_registration hb.place
      obtain ⟨hn, hk, -⟩ := SourceFile.mem_objectArgument (regular_of_isRead hread) hc ho
      exact absurd hk (hkinds call (hmem call hn)).2

end SingleImport

namespace SetupOutcome

variable {σ σ' : Type} (sink : Sink σ) (stamp : RunStamp) (tool : ToolInfo) {reader : TreeReader}
  {base : PathMap String} (settings : SetupSettings) (state : σ)

/-- With a reader of a grammar, a setup that no step stopped changes nothing the second time, but
for the relapses. -/
theorem silent_again_iff_not_relapse (hg : reader.Grammatical) (sink' : Sink σ') (stamp' : RunStamp)
    (state' : σ')
    (h : (ofRun sink stamp tool (.ofTexts reader base) settings state).1.report.abortedBy = none) :
    (ofRun sink' stamp' tool (.ofTexts reader (base.insertAll
        (ofRun sink stamp tool (.ofTexts reader base) settings state).1.staged)) settings
        state').1.Silent ↔ ¬ Relapse reader settings base.find? := by
  have hfirst : FirstRun reader settings base.find? :=
    ⟨hg, fun hs => PathMap.find?_congr hs base,
      (complete_of_ofRun sink stamp tool settings state h).1⟩
  rw [silent_again_iff sink stamp tool settings state sink' stamp' state' h]
  exact hfirst.rests_iff

def firstStamp : RunStamp := ⟨⟨List.replicate 32 ⟨0, by omega⟩, rfl⟩, ⟨0, 0⟩, ⟨0, 0⟩⟩

def bareProject : PathMap String :=
  (PathMap.empty.insert ⟨"main.ts"⟩ "").insert ⟨"package.json"⟩ "\x7b\x7d"

def bareSettings : SetupSettings where
  projectRoot := ⟨"."⟩
  project := ⟨⟨"main.ts"⟩, none, some ⟨"package.json"⟩⟩
  firebase := .blank
  versions := ⟨"1", "2"⟩
  dryRun := true
  reportDir := none

def runOn (base : PathMap String) : SetupOutcome :=
  (ofRun (fun n _ => n) firstStamp ⟨"graft", none⟩ (.ofTexts SingleImport.reader base) bareSettings
    ()).1

theorem silent_again_bareProject :
    (runOn bareProject).report.abortedBy = none ∧
    (runOn bareProject).staged.map (fun entry => entry.1.spelling) = ["main.ts", "package.json"] ∧
    (runOn (bareProject.insertAll (runOn bareProject).staged)).Silent := by
  have h : (runOn bareProject).report.abortedBy = none := by decide +kernel
  refine ⟨h, by decide +kernel, ?_⟩
  refine (silent_again_iff_not_relapse (fun n _ => n) firstStamp ⟨"graft", none⟩ bareSettings ()
    SingleImport.grammatical_reader (fun n _ => n) firstStamp () h).2 ?_
  intro hrelapse
  cases hrelapse with
  | uncovered hconfigured => cases hconfigured
  | quoted hconfigured => cases hconfigured
  | moved hconfigured => cases hconfigured

end SetupOutcome

end Codemod
