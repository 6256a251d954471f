import Codemod.Chain.ManifestStep
import Codemod.Proofs.Freshness

/-!
What planning a change and running a step come to.

`plansTo_plan` lists the ways that planning goes, and `patchesTo_patch`, `PatchStep.runsTo_run` and
`ManifestStep.runsTo_run` those that steps go on a staging area. Whatever is kept by a plan or a step
is proved from these, with one case for each way.
-/
namespace Codemod

namespace SourceFile

/-- What planning a change comes to. -/
inductive PlansTo (file : SourceFile) (change : Change) : Except PlanError EditPlan → Prop
  | present : file.isPresent change = true → PlansTo file change (.ok (file.noOpPlan change))
  | taken {error : PlanError} : file.isPresent change = false →
    file.collides change = some error → PlansTo file change (.error error)
  | lost {error : PlanError} : file.isPresent change = false → file.collides change = none →
    file.locate change = .error error → PlansTo file change (.error error)
  | unfit {anchor : Anchor} {error : PlanError} : file.isPresent change = false →
    file.collides change = none → file.locate change = .ok anchor →
    file.insertionText anchor change = .error error → PlansTo file change (.error error)
  | inserted {anchor : Anchor} {piece : String} : file.isPresent change = false →
    file.collides change = none → file.locate change = .ok anchor →
    file.insertionText anchor change = .ok piece →
    PlansTo file change (.ok (.insert file.path anchor.offset piece
      (change.describe ++ " at " ++ anchor.kind.label)))

theorem plansTo_plan (file : SourceFile) (change : Change) :
    file.PlansTo change (file.plan change) := by
  unfold plan
  cases hp : file.isPresent change with
  | true => exact .present hp
  | false =>
    cases hc : file.collides change with
    | some error => exact .taken hp hc
    | none =>
      cases hl : file.locate change with
      | error error => exact .lost hp hc hl
      | ok anchor =>
        simp only [bind, Except.bind, planAt, Bool.false_eq_true, if_false]
        cases ht : file.insertionText anchor change with
        | error error => exact .unfit hp hc hl ht
        | ok piece => exact .inserted hp hc hl ht

variable {file : SourceFile} {change : Change}

theorem collides_eq_some {error : PlanError} (h : file.collides change = some error) :
    ∃ identifier module, change = .insertImport identifier module ∧
      file.nameTaken identifier = true ∧ error = .nameTaken file.path identifier module := by
  cases change with
  | insertImport identifier module =>
    simp only [collides] at h
    split at h
    · rename_i ht
      exact ⟨identifier, module, rfl, ht, (Option.some.inj h).symm⟩
    · cases h
  | appendField | register => cases h

/-- A plan is about the file that it is made for. -/
theorem plan_target {plan : EditPlan} (h : file.plan change = .ok plan) :
    plan.target = file.path := by
  have hplan := file.plansTo_plan change
  rw [h] at hplan
  cases hplan <;> rfl

/-- Only what is there leads to a plan that does nothing. -/
theorem isPresent_of_noOp {named : Path} {rationale : String}
    (h : file.plan change = .ok (.noOp named rationale)) : file.isPresent change = true := by
  have hplan := file.plansTo_plan change
  rw [h] at hplan
  cases hplan with
  | present hp => exact hp

/-- An insertion is planned for a change that is not there and that no name keeps out. -/
theorem plan_eq_insert {named : Path} {offset : Nat} {piece rationale : String}
    (h : file.plan change = .ok (.insert named offset piece rationale)) :
    file.isPresent change = false ∧ file.collides change = none ∧
      ∃ anchor, file.locate change = .ok anchor ∧ anchor.offset = offset ∧
        file.insertionText anchor change = .ok piece := by
  have hplan := file.plansTo_plan change
  rw [h] at hplan
  cases hplan with
  | inserted hp hc hl ht => exact ⟨hp, hc, _, hl, rfl, ht⟩

end SourceFile

open Codemod.Tree

variable {project : Project} {tree : Tree}

/-- Loading keeps the trees of the staged files up to date. -/
theorem Tree.fresh_load (h : tree.Fresh project.reader) (path : Path) :
    (tree.load project path).2.Fresh project.reader :=
  (load_moves project tree path).keeps fresh_move h

theorem Tree.source_of_find? {path : Path} {file : StagedFile} {source : SourceFile}
    (hf : tree.files.find? path = some file) (hs : file.source = some source) :
    tree.source project path = (.ok source, tree) := by
  simp [Tree.source, load, hf, hs]

/-- The edit that a splice is recorded as leads from the one text to the other. -/
theorem Splice.replay?_between (old new rationale : String) :
    EditRecord.replay? ⟨(between old new).offset, (between old new).removed,
      (between old new).inserted, rationale⟩ old = some new := replaceAt?_between old new

/-- A staged file that is given another text by one record moves on. -/
theorem Tree.moves_edited {path : Path} {file : StagedFile}
    (hf : tree.files.find? path = some file) {text : String} {record : EditRecord}
    (hr : record.replay? file.text = some text) {source : Option SourceFile}
    (ha : analyze project.reader path text = .ok source) :
    Moves project tree ⟨tree.files.insert path (edited file text source [record])⟩ :=
  (Move.commit hf (by simp) (by rw [EditRecord.replayAll?_singleton, hr]) ha).moves

namespace PatchStep

variable {step : PatchStep} {target : Path} {change : Change} {source : SourceFile}

/-- The plan of a step is one for its change, in a file with the name that it needs. -/
theorem planFor_eq_ok_iff {plan : EditPlan} : step.planFor target source change = .ok plan ↔
    step.lacking source change = none ∧ source.plan change = .ok plan := by
  unfold planFor
  cases step.lacking source change with
  | some identifier => simp
  | none => cases source.plan change <;> simp

/-- What making a change in a file comes to, where the staged files are up to date. -/
inductive PatchesTo (project : Project) (step : PatchStep) (target : Path) (change : Change)
    (tree : Tree) : Except StepError StepOutput × Tree → Prop
  /-- The file was loaded at most. -/
  | refused (error : StepError) :
    PatchesTo project step target change tree (.error error, (tree.load project target).2)
  /-- The change is in the staged file. -/
  | present {file : StagedFile} {source : SourceFile} :
    (tree.load project target).2.files.find? target = some file → file.source = some source →
    source.isPresent change = true →
    PatchesTo project step target change tree
      (.ok ⟨target, false, (source.noOpPlan change).rationale⟩, (tree.load project target).2)
  /-- A text was put into the staged file, by the spelling that its source has. -/
  | inserted {file : StagedFile} {source : SourceFile} {offset : Nat}
      {piece rationale text : String} {found : Option SourceFile} :
    (tree.load project target).2.files.find? target = some file → file.source = some source →
    source.path.same target = true → step.lacking source change = none →
    source.plan change = .ok (.insert source.path offset piece rationale) →
    Text.insertAt? file.text offset piece = some text →
    analyze project.reader source.path text = .ok found →
    PatchesTo project step target change tree (.ok ⟨target, true, rationale⟩,
      ⟨(tree.load project target).2.files.insert source.path
        (edited file text found [⟨offset, 0, piece, rationale⟩])⟩)

theorem patchesTo_patch (h : tree.Fresh project.reader) (step : PatchStep) (target : Path)
    (change : Change) :
    PatchesTo project step target change tree (step.patch project target change tree) := by
  have hfresh := fresh_load h target
  have htree := source_tree project tree target
  unfold patch
  cases hs : tree.source project target with
  | mk answer mid =>
    rw [hs] at htree
    subst htree
    cases answer with
    | error error => exact .refused _
    | ok source =>
      obtain ⟨file, hf, hsource⟩ := source_staged hs
      have hpath := ((hfresh.find? hf).of_source source hsource).2.1
      have hfile := (PathMap.find?_congr hpath _).trans hf
      simp only
      cases hp : step.planFor target source change with
      | error error => exact .refused error
      | ok plan =>
        obtain ⟨hbound, hplan⟩ := planFor_eq_ok_iff.1 hp
        have hways := source.plansTo_plan change
        rw [hplan] at hways
        cases hways with
        | present hpresent =>
          simp only [SourceFile.noOpPlan, apply_noOp hfile]
          exact .present hf hsource hpresent
        | @inserted anchor piece =>
          simp only [apply_insert hfile]
          cases hi : Text.insertAt? file.text anchor.offset piece with
          | none => exact .refused _
          | some text =>
            cases ha : analyze project.reader source.path text with
            | error error =>
              simp only [ha]
              exact .refused _
            | ok found =>
              simp only [ha]
              exact .inserted hf hsource hpath hbound hplan hi ha

/-- What running a step comes to. -/
inductive RunsTo (project : Project) (step : PatchStep) (tree : Tree) :
    Except StepError StepOutput × Tree → Prop
  /-- There is no file to change. -/
  | unfound {error : StepError} : (step.target.resolve project tree).1 = .error error →
    RunsTo project step tree (.error error, (step.target.resolve project tree).2)
  /-- There is no change to make. -/
  | unchosen {target : Path} {error : StepError} :
    (step.target.resolve project tree).1 = .ok target →
    step.change.resolve project (step.target.resolve project tree).2 target = .error error →
    RunsTo project step tree (.error error, (step.target.resolve project tree).2)
  | patched {target : Path} {change : Change} :
    (step.target.resolve project tree).1 = .ok target →
    step.change.resolve project (step.target.resolve project tree).2 target = .ok change →
    RunsTo project step tree
      (step.patch project target change (step.target.resolve project tree).2)

theorem runsTo_run (project : Project) (step : PatchStep) (tree : Tree) :
    RunsTo project step tree (step.run project tree) := by
  have hunfound := @RunsTo.unfound project step tree
  have hunchosen := @RunsTo.unchosen project step tree
  have hpatched := @RunsTo.patched project step tree
  unfold run
  cases hr : step.target.resolve project tree with
  | mk answer mid =>
    rw [hr] at hunfound hunchosen hpatched
    cases answer with
    | error error => exact hunfound rfl
    | ok target =>
      simp only
      cases hc : step.change.resolve project mid target with
      | error error => exact hunchosen rfl hc
      | ok change => exact hpatched rfl hc

end PatchStep

namespace ManifestStep

/-- What staging another text of a staged manifest comes to: the same text again is no edit, and
the part that differs is one. -/
theorem stageText_staged {path : Path} {file : StagedFile}
    (h : tree.files.find? path = some file) (text detail : String) :
    stageText project path text detail tree =
      if text = file.text then (.ok ⟨path, false, detail⟩, tree)
      else
        match analyze project.reader path text with
        | .error error => (.error (.edit (.wouldCorrupt path error)), tree)
        | .ok source => (.ok ⟨path, true, detail⟩, ⟨tree.files.insert path
            (edited file text source [⟨(Splice.between file.text text).offset,
              (Splice.between file.text text).removed,
              (Splice.between file.text text).inserted, detail⟩])⟩) := by
  simp only [stageText, Tree.edit, Tree.load, h, Buffer.replaceAll]
  by_cases ht : text = file.text
  · simp [ht, Tree.commit]
  · simp only [ht, if_false, Tree.commit, List.nil_append, List.isEmpty_cons, Bool.false_eq_true]
    cases analyze project.reader path text <;> rfl

/-- What declaring dependencies comes to. -/
inductive RunsTo (project : Project) (step : ManifestStep) (tree : Tree) :
    Except StepError StepOutput × Tree → Prop
  /-- There is no manifest to edit. -/
  | unnamed : step.manifest = none → RunsTo project step tree (.error (.missing none), tree)
  /-- The manifest was loaded at most. -/
  | refused {path : Path} (error : StepError) : step.manifest = some path →
    RunsTo project step tree (.error error, (tree.load project path).2)
  | unchanged {path : Path} (detail : String) : step.manifest = some path →
    RunsTo project step tree (.ok ⟨path, false, detail⟩, (tree.load project path).2)
  /-- The part of the manifest that differs was replaced. -/
  | staged {path : Path} {file : StagedFile} {text detail : String}
      {source : Option SourceFile} : step.manifest = some path →
    (tree.load project path).2.files.find? path = some file →
    Manifest.declareIn? path file.text step.dependencies = .ok (some text) → text ≠ file.text →
    analyze project.reader path text = .ok source →
    RunsTo project step tree (.ok ⟨path, true, detail⟩,
      ⟨(tree.load project path).2.files.insert path
        (edited file text source [⟨(Splice.between file.text text).offset,
          (Splice.between file.text text).removed,
          (Splice.between file.text text).inserted, detail⟩])⟩)

theorem runsTo_run (project : Project) (step : ManifestStep) (tree : Tree) :
    RunsTo project step tree (step.run project tree) := by
  unfold run
  cases hm : step.manifest with
  | none => exact .unnamed hm
  | some path =>
    have hrefused := @RunsTo.refused project step tree path
    have hunchanged := @RunsTo.unchanged project step tree path
    have hstaged := @RunsTo.staged project step tree path
    simp only [Tree.text]
    cases hl : tree.load project path with
    | mk answer mid =>
      rw [hl] at hrefused hunchanged hstaged
      cases answer with
      | error error => exact hrefused _ hm
      | ok file =>
        have hf := find?_of_load_ok hl
        simp only
        cases hd : Manifest.declareIn? path file.text step.dependencies with
        | error error => exact hrefused error hm
        | ok found =>
          cases found with
          | none => exact hunchanged _ hm
          | some text =>
            simp only [stageText_staged hf]
            by_cases ht : text = file.text
            · rw [if_pos ht]
              exact hunchanged _ hm
            · rw [if_neg ht]
              cases ha : analyze project.reader path text with
              | error error => exact hrefused _ hm
              | ok source => exact hstaged hm hf hd ht ha

end ManifestStep

end Codemod
