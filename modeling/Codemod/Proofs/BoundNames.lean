import Codemod.Proofs.ChangeSets
import Codemod.Proofs.WriteOuts

/-!
Registrations and the name that they need.

A registration mentions `environment`, so it is made only in a file that binds the name. Where the
name cannot be imported, because its file is not configured or not there, and the root module does
not bind it, nothing after the manifest is given a text with the name in it: the import of the
package neither binds the name nor leads to another root module, and the registration is left out.
-/
namespace Codemod

open Source

/-- A report is one on a step, in the state that the steps before it have left. -/
theorem Step.exists_turn {steps : List Step} {tree : Tree} {entry : StepReport}
    (h : entry ∈ reports steps tree) : ∃ n, ∃ step : Step,
      steps[n]? = some step ∧
      entry = step.reportOn (step.run (treeAfter (steps.take n) tree)).1 := by
  obtain ⟨n, hn⟩ := List.mem_iff_getElem?.1 h
  rw [getElem?_reports] at hn
  obtain ⟨step, hstep, rfl⟩ := Option.map_eq_some_iff.1 hn
  exact ⟨n, step, hstep, rfl⟩

namespace PatchStep

open Codemod.Tree

variable {project : Project} {step : PatchStep} {tree : Tree}

/-- The file, the source and the change that a step is planned for. -/
structure PlansFor (project : Project) (step : PatchStep) (tree : Tree) (target : Path)
    (change : Change) (source : SourceFile) : Prop where
  found : (step.target.resolve project tree).1 = .ok target
  chosen : step.change.resolve project (step.target.resolve project tree).2 target = .ok change
  source : ((step.target.resolve project tree).2.source project target).1 = .ok source

/-- A step that is applied puts the text of its change into the source that it is planned for. -/
structure Inserts (project : Project) (step : PatchStep) (tree : Tree) (target : Path)
    (change : Change) (source : SourceFile) (tree' : Tree) : Prop where
  plans : PlansFor project step tree target change source
  absent : source.isPresent change = false
  bound : step.lacking source change = none
  free : source.collides change = none
  brought : ∃ file anchor piece rationale source',
    ((step.target.resolve project tree).2.load project target).2.files.find? target = some file ∧
    file.source = some source ∧ source.path.same target = true ∧
    source.Brings project.reader change anchor piece source' ∧
    tree' = ⟨((step.target.resolve project tree).2.load project target).2.files.insert source.path
      (edited file source'.text (some source') [⟨anchor.offset, 0, piece, rationale⟩])⟩

/-- What a step answers and leaves behind. -/
inductive Course (project : Project) (step : PatchStep) (tree : Tree) :
    Except StepError StepOutput × Tree → Prop
  /-- It has no file or no change. -/
  | halted (error : StepError) :
    Course project step tree (.error error, (step.target.resolve project tree).2)
  /-- It does nothing to the file. -/
  | idle {target : Path} {answer : Except StepError StepOutput} :
    (step.target.resolve project tree).1 = .ok target →
    (∀ output, answer = .ok output → output.applied = false) →
    Course project step tree
      (answer, ((step.target.resolve project tree).2.load project target).2)
  | applied {target : Path} {change : Change} {source : SourceFile} {detail : String}
      {tree' : Tree} : Inserts project step tree target change source tree' →
    Course project step tree (.ok ⟨target, true, detail⟩, tree')

/-- A planned insertion into a staged source file brings its change into it. -/
theorem exists_brings (h : tree.Fresh project.reader) {target : Path} {file : StagedFile}
    {source : SourceFile} (hf : tree.files.find? target = some file)
    (hs : file.source = some source) {change : Change} {named : Path} {offset : Nat}
    {piece rationale text : String}
    (hplan : source.plan change = .ok (.insert named offset piece rationale))
    (hi : Text.insertAt? file.text offset piece = some text) {found : Option SourceFile}
    (ha : analyze project.reader source.path text = .ok found) :
    ∃ anchor source', anchor.offset = offset ∧ source'.text = text ∧ found = some source' ∧
      source.Brings project.reader change anchor piece source' := by
  obtain ⟨htext, hpath, hl, -⟩ := (h.find? hf).of_source source hs
  obtain ⟨-, -, anchor, hlocate, rfl, hlayout⟩ := SourceFile.plan_eq_insert hplan
  rw [analyze_eq_ok_iff, Language.ofPath?_congr hpath, hl] at ha
  obtain ⟨root, hread, rfl⟩ := ha
  refine ⟨anchor, ⟨source.path, source.language, text, root⟩, rfl, rfl, rfl, hlocate, hlayout, ?_,
    rfl, rfl, hread⟩
  rw [htext, hi]

/-- The course of a step that has found a file and a change. -/
theorem course_patch (h : tree.Fresh project.reader) {target : Path} {change : Change}
    (ht : (step.target.resolve project tree).1 = .ok target)
    (hc : step.change.resolve project (step.target.resolve project tree).2 target = .ok change) :
    Course project step tree
      (step.patch project target change (step.target.resolve project tree).2) := by
  have hresolved := (RecipeStep.moves_resolve project tree step.target).keeps fresh_move h
  have hways := patchesTo_patch hresolved step target change
  generalize step.patch project target change (step.target.resolve project tree).2 = result
    at hways
  cases hways with
  | refused error => exact .idle ht nofun
  | present =>
    refine .idle ht ?_
    rintro output ⟨⟩
    rfl
  | @inserted file source _ _ _ _ _ hf hs hpath hbound hp hi ha =>
    have hfresh := fresh_load hresolved target
    obtain ⟨anchor, source', rfl, rfl, rfl, hb⟩ := exists_brings hfresh hf hs hp hi ha
    obtain ⟨habsent, hfree, -⟩ := SourceFile.plan_eq_insert hp
    have hsource : ((step.target.resolve project tree).2.source project target).1 =
        .ok source := by rw [← source_load, source_of_find? hf hs]
    exact .applied ⟨⟨ht, hc, hsource⟩, habsent, hbound, hfree, _, anchor, _, _, source', hf, hs,
      hpath, hb, rfl⟩

/-- Every step takes one of the courses. -/
theorem course_run (h : tree.Fresh project.reader) (step : PatchStep) :
    Course project step tree (step.run project tree) := by
  have hways := runsTo_run project step tree
  generalize step.run project tree = result at hways
  cases hways with
  | unfound | unchosen => exact .halted _
  | patched ht hc => exact course_patch h ht hc

/-- A step that is a success has been applied. -/
theorem Course.inserts_of_success {result : Except StepError StepOutput × Tree}
    (h : Course project step tree result)
    (hs : ((step.toStep project).reportOn result.1).outcome = .success) :
    ∃ target change source, Inserts project step tree target change source result.2 ∧
      ((step.toStep project).reportOn result.1).target = some target := by
  have hfailure : ∀ error, (step.toStep project).failure error ≠ .success := by
    intro error
    unfold Step.failure
    split
    · decide
    · cases (step.toStep project).policy <;> decide
  cases h with
  | halted error => exact absurd hs (hfailure error)
  | @idle _ answer _ ha =>
    cases answer with
    | error error => exact absurd hs (hfailure error)
    | ok output => simp [Step.reportOn, ha output rfl] at hs
  | applied hi => exact ⟨_, _, _, hi, rfl⟩

/-- A step whose file cannot be loaded changes nothing. -/
theorem run_of_unloaded (step : PatchStep) {file : Option Path} (ht : step.target = .file file)
    (hs : ∀ path, file = some path → ∃ error, tree.source project path = (.error error, tree)) :
    (step.run project tree).2 = tree := by
  unfold run
  rw [ht]
  cases file with
  | none => rfl
  | some path =>
    obtain ⟨error, he⟩ := hs path rfl
    simp only [TargetFile.resolve]
    cases step.change.resolve project tree path with
    | error error => rfl
    | ok change => simp only [patch, he]

/-- Neither does one whose file cannot be found. -/
theorem run_of_unfound (step : PatchStep) {error : StepError}
    (h : step.target.resolve project tree = (.error error, tree)) :
    (step.run project tree).2 = tree := by
  simp only [run, h]

/-- A step that has no change to make only looks for its file. -/
theorem run_of_unchosen (step : PatchStep) (hc : ∀ target, ∃ error,
      step.change.resolve project (step.target.resolve project tree).2 target = .error error) :
    (step.run project tree).2 = (step.target.resolve project tree).2 := by
  have hways := runsTo_run project step tree
  generalize step.run project tree = result at hways
  cases hways with
  | unfound | unchosen => rfl
  | patched _ hfound =>
    obtain ⟨error, he⟩ := hc _
    cases hfound.symm.trans he

end PatchStep

namespace ManifestStep

variable {project : Project} {step : ManifestStep} {tree : Tree}

/-- What is declared is declared in the manifest. -/
theorem target_of_run {output : StepOutput} {last : Tree}
    (h : step.run project tree = (.ok output, last)) : step.manifest = some output.target := by
  have hways := runsTo_run project step tree
  rw [h] at hways
  cases hways with
  | unchanged _ hm | staged hm => exact hm

/-- Any other file is as it was. -/
theorem keeps_other {path : Path}
    (h : ∀ manifest, step.manifest = some manifest → manifest.same path = false) :
    Tree.Keeps project tree (step.run project tree).2 path := by
  have htruth : Tree.Truthful project tree (step.run project tree) := step.truthful_declaration
  cases hr : step.run project tree with
  | mk answer last =>
    rw [hr] at htruth
    cases answer with
    | error error => exact htruth path
    | ok output =>
      simp only [Tree.Truthful] at htruth
      split at htruth
      · exact htruth.others path (h output.target (target_of_run hr))
      · exact htruth path

end ManifestStep

theorem TargetFile.resolve_resolve (project : Project) (tree : Tree) (target : TargetFile) :
    target.resolve project (target.resolve project tree).2 = target.resolve project tree := by
  cases target with
  | file given => cases given <;> rfl
  | rootModuleOf main =>
    have htree : ((rootModuleOf main).resolve project tree).2 = (tree.load project main).2 := by
      rw [← Tree.source_tree]
      simp only [resolve]
      split <;> simp [*]
    rw [htree]
    simp only [resolve, Tree.source_load]

namespace Tree

variable {project : Project} {tree : Tree} {main root : Path} {name : String}

/-- The entry file is staged and leads to a root module, and what is loaded for that does not bind
a name. -/
structure Unbound (project : Project) (main root : Path) (name : String) (tree : Tree) : Prop where
  fresh : tree.Fresh project.reader
  entry : ∃ file source, tree.files.find? main = some file ∧ file.source = some source ∧
    source.rootModule.getD main = root
  unbound : ∀ source, (tree.source project root).1 = .ok source → source.bindsValue name = false

theorem Unbound.resolve (h : tree.Unbound project main root name) :
    (TargetFile.rootModuleOf main).resolve project tree = (.ok root, tree) := by
  obtain ⟨file, source, hf, hs, hroot⟩ := h.entry
  simp only [TargetFile.resolve, source_of_find? hf hs, hroot]

theorem unbound_of_resolve (hfresh : tree.Fresh project.reader)
    (hr : ((TargetFile.rootModuleOf main).resolve project tree).1 = .ok root)
    (hu : ∀ source,
      (((TargetFile.rootModuleOf main).resolve project tree).2.source project root).1 =
        .ok source → source.bindsValue name = false) :
    ((TargetFile.rootModuleOf main).resolve project tree).2.Unbound project main root name := by
  refine ⟨(RecipeStep.moves_resolve project tree _).keeps fresh_move hfresh, ?_, hu⟩
  simp only [TargetFile.resolve] at hr ⊢
  cases hs : tree.source project main with
  | mk answer mid =>
    rw [hs] at hr
    cases answer with
    | error error => cases hr
    | ok source =>
      obtain ⟨file, hf, hsource⟩ := source_staged hs
      exact ⟨file, source, hf, hsource, Except.ok.inj hr⟩

/-- Loading the root module changes nothing about that. -/
theorem Unbound.load (h : tree.Unbound project main root name) :
    (tree.load project root).2.Unbound project main root name := by
  obtain ⟨file, source, hf, hs, hroot⟩ := h.entry
  have hkept := (keeps_load project tree root main).kept file hf
  refine ⟨fresh_load h.fresh root, ⟨file, source, hkept, hs, hroot⟩, ?_⟩
  rw [source_load]
  exact h.unbound

/-- Neither does an import of another name from a package into the root module. -/
theorem Unbound.insert (h : tree.Unbound project main root name) {identifier module : String}
    (hg : project.reader.GrowsBy (.insertImport identifier module)) (hne : identifier ≠ name)
    (hname : '\x7d' ∉ name.toList)
    (hmodule : ∀ s, s = String.ofList (Text.escaped module) ∨ sameModule s module = true →
      s.toList.head? ≠ some '.')
    {file : StagedFile} {source source' : SourceFile} {anchor : Anchor} {piece : String}
    (hf : tree.files.find? root = some file) (hs : file.source = some source)
    (hpath : source.path.same root = true) (hfree : source.nameTaken identifier = false)
    (hb : source.Brings project.reader (.insertImport identifier module) anchor piece source')
    (edits : List EditRecord) :
    Unbound project main root name ⟨tree.files.insert source.path
      (edited file source'.text (some source') edits)⟩ := by
  obtain ⟨htext, -, hl, hroot⟩ := (h.fresh.find? hf).of_source source hs
  have hread : source.IsRead project.reader := by rwa [SourceFile.IsRead, htext]
  have hanalyze : analyze project.reader source.path source'.text = .ok (some source') := by
    have heq : (⟨source.path, source.language, source'.text, source'.root⟩ : SourceFile) =
        source' := by
      rw [← hb.path, ← hb.language]
    have hread' := hb.read
    rw [SourceFile.IsRead, hb.language] at hread'
    rw [analyze_eq_ok_iff, Language.ofPath?_congr hpath, hl]
    exact ⟨source'.root, hread', by rw [heq]⟩
  refine ⟨fresh_insert h.fresh hanalyze, ?_, ?_⟩
  · obtain ⟨entry, program, hentry, hprogram, hmain⟩ := h.entry
    cases hsame : source.path.same main with
    | true =>
      have hone : tree.files.find? main = some file := by
        rw [← PathMap.find?_congr hsame, PathMap.find?_congr hpath, hf]
      obtain rfl := Option.some.inj (hentry.symm.trans hone)
      obtain rfl := Option.some.inj (hprogram.symm.trans hs)
      refine ⟨edited entry source'.text (some source') edits, source', ?_, rfl, ?_⟩
      · rw [PathMap.find?_insert, if_pos hsame]
      · rw [hb.rootModule_import hg hread hfree hmodule, hmain]
    | false =>
      refine ⟨entry, program, ?_, hprogram, hmain⟩
      rw [PathMap.find?_insert, if_neg (by simp [hsame]), hentry]
  · intro found hfound
    rw [source_of_find? (by rw [PathMap.find?_insert, if_pos hpath]) rfl] at hfound
    obtain rfl := Except.ok.inj hfound
    rw [hb.bindsValue_import hg hread hne hname]
    exact h.unbound source (by rw [source_of_find? hf hs])

end Tree

namespace Tree

variable {project : Project} {tree mid last : Tree} {word : String}

/-- No text that is put into a file on the way from one staging area to another has a word in it. -/
def Spares (word : String) (tree last : Tree) : Prop :=
  ∀ path, ∃ later, last.history path = tree.history path ++ later ∧
    ∀ record ∈ later, ¬ word.toList <:+: record.inserted.toList

theorem Spares.refl (word : String) (tree : Tree) : Spares word tree tree :=
  fun _ => ⟨[], by simp, nofun⟩

theorem Spares.trans (h : Spares word tree mid) (h' : Spares word mid last) :
    Spares word tree last := by
  intro path
  obtain ⟨first, hfirst, hspares⟩ := h path
  obtain ⟨rest, hrest, hspares'⟩ := h' path
  refine ⟨first ++ rest, by rw [hrest, hfirst, List.append_assoc], ?_⟩
  intro record hmem
  exact (List.mem_append.1 hmem).elim (hspares record) (hspares' record)

theorem history_of_find? {path : Path} {file : StagedFile}
    (h : tree.files.find? path = some file) : tree.history path = file.history := by
  simp [history, h]

theorem Keeps.history {path : Path} (h : Keeps project tree last path) :
    last.history path = tree.history path := by
  cases hl : last.files.find? path with
  | none =>
    have ht : tree.files.find? path = none := by
      cases ht : tree.files.find? path with
      | none => rfl
      | some file => rw [h.kept file ht] at hl; cases hl
    simp [Tree.history, hl, ht]
  | some file =>
    rw [history_of_find? hl]
    cases h.found file hl with
    | staged ht => rw [history_of_find? ht]
    | found ht => simp [Tree.history, ht, fileOf]

theorem spares_of_keeps (h : ∀ path, Keeps project tree last path) : Spares word tree last :=
  fun path => ⟨[], by rw [(h path).history, List.append_nil], nofun⟩

theorem spares_load (project : Project) (word : String) (tree : Tree) (path : Path) :
    Spares word tree (tree.load project path).2 :=
  spares_of_keeps (keeps_load project tree path)

theorem spares_insert {path : Path} {file : StagedFile} (hf : tree.files.find? path = some file)
    {text : String} {source : Option SourceFile} {record : EditRecord}
    (h : ¬ word.toList <:+: record.inserted.toList) :
    Spares word tree ⟨tree.files.insert path (edited file text source [record])⟩ := by
  intro q
  cases hq : path.same q with
  | true =>
    have hold : tree.files.find? q = some file := by rw [← PathMap.find?_congr hq, hf]
    refine ⟨[record], ?_, fun other hmem => List.mem_singleton.1 hmem ▸ h⟩
    rw [history_of_find? hold]
    simp [Tree.history, PathMap.find?_insert, hq, edited]
  | false =>
    refine ⟨[], ?_, fun _ hnone => absurd hnone List.not_mem_nil⟩
    simp [Tree.history, PathMap.find?_insert, hq]

end Tree

/-- The text of the import of the package does not mention `environment`. -/
theorem SourceFile.insertionText_package {file : SourceFile} {anchor : Anchor} {piece : String}
    (h : file.insertionText anchor (.insertImport "AngularFireModule" "@angular/fire") =
      .ok piece) : ¬ "environment".toList <:+: piece.toList := by
  simp only [insertionText] at h
  split at h
  · obtain rfl := Except.ok.inj h
    split <;> decide +kernel
  · obtain rfl := Except.ok.inj h
    decide +kernel
  · obtain rfl := Except.ok.inj h
    decide +kernel
  · cases h

namespace Recipe

open Codemod.Tree

variable {project : Project} {files : ProjectFiles} {tree : Tree} {root : Path}

/-- The import of the package binds no `environment`, and its text has no such word. -/
theorem unbound_importAngularFire
    (hg : project.reader.GrowsBy (.insertImport "AngularFireModule" "@angular/fire"))
    (h : tree.Unbound project files.main root "environment") :
    Unbound project files.main root "environment" ((importAngularFire files).run project tree).2 ∧
      Spares "environment" tree ((importAngularFire files).run project tree).2 := by
  have hcourse := PatchStep.course_run h.fresh (importAngularFire files)
  have hresolve : (importAngularFire files).target.resolve project tree = (.ok root, tree) :=
    h.resolve
  generalize (importAngularFire files).run project tree = result at hcourse
  cases hcourse with
  | halted error =>
    rw [hresolve]
    exact ⟨h, .refl _ tree⟩
  | idle ht ha =>
    rw [hresolve] at ht ⊢
    obtain rfl := Except.ok.inj ht
    exact ⟨h.load, spares_load project _ tree root⟩
  | applied hi =>
    obtain ⟨file, anchor, piece, rationale, source', hf, hs, hpath, hb, rfl⟩ := hi.brought
    have ht := hi.plans.found
    obtain rfl := Except.ok.inj hi.plans.chosen
    rw [hresolve] at ht hf ⊢
    obtain rfl := Except.ok.inj ht
    have hfree := hi.free
    simp only [SourceFile.collides, ite_eq_right_iff, reduceCtorEq, imp_false,
      Bool.not_eq_true] at hfree
    have hunbound := h.load.insert hg (by decide) (by decide) package_not_relative hf hs hpath
      hfree hb
    refine ⟨hunbound _, ?_⟩
    have hsource := (PathMap.find?_congr hpath _).trans hf
    exact (spares_load project _ tree root).trans
      (spares_insert hsource (SourceFile.insertionText_package hb.layout))

/-- Without the name, the registration is left out. -/
theorem spares_registerAngularFire (h : tree.Unbound project files.main root "environment") :
    Spares "environment" tree ((registerAngularFire files).run project tree).2 := by
  have hcourse := PatchStep.course_run h.fresh (registerAngularFire files)
  have hresolve : (registerAngularFire files).target.resolve project tree = (.ok root, tree) :=
    h.resolve
  generalize (registerAngularFire files).run project tree = result at hcourse
  cases hcourse with
  | halted error =>
    rw [hresolve]
    exact .refl _ tree
  | idle ht ha =>
    rw [hresolve]
    exact spares_load project _ tree _
  | @applied target change source _ _ hi =>
    have ht := hi.plans.found
    have hs := hi.plans.source
    rw [hresolve] at ht hs
    obtain rfl := Except.ok.inj ht
    have hlack := hi.bound
    simp [PatchStep.lacking, registerAngularFire, hi.absent, h.unbound source hs] at hlack

end Recipe

/-- There is no file under any spelling of a path. -/
def View.Lacks (view : View) (path : Path) : Prop :=
  ∀ spelled : Path, spelled.same path = true →
    view.holds spelled = false ∧ ∀ text, view.read spelled ≠ .ok (some text)

namespace SetupSettings

open Codemod.Tree

variable {project : Project} {settings : SetupSettings}

def treeAt (project : Project) (settings : SetupSettings) (n : Nat) : Tree :=
  Step.treeAfter (((SetupOutcome.recipe settings).take n).map (RecipeStep.toStep project)) .empty

/-- The root module as the import of the environment loads it. -/
def IsRootModule (project : Project) (settings : SetupSettings) (source : SourceFile) : Prop :=
  ∃ root, ((TargetFile.rootModuleOf settings.project.main).resolve project
      (settings.treeAt project 2)).1 = .ok root ∧
    (((TargetFile.rootModuleOf settings.project.main).resolve project
      (settings.treeAt project 2)).2.source project root).1 = .ok source

/-- There are five steps. -/
theorem treeAt_all (n : Nat) : settings.treeAt project (n + 5) = settings.treeAt project 5 := by
  have hlength : (SetupOutcome.recipe settings).length = 5 := rfl
  rw [treeAt, treeAt, List.take_of_length_le (by omega), List.take_of_length_le (by omega)]

theorem moves_treeAt (project : Project) (settings : SetupSettings) (n : Nat) :
    Moves project .empty (settings.treeAt project n) :=
  RecipeStep.moves_treeAfter _ .empty

theorem fresh_treeAt (project : Project) (settings : SetupSettings) (n : Nat) :
    (settings.treeAt project n).Fresh project.reader :=
  (moves_treeAt project settings n).keeps fresh_move fresh_empty

/-- A file that is not there is never staged. -/
theorem find?_of_lacks {tree : Tree} (hm : Moves project .empty tree) {path : Path}
    (h : project.view.Lacks path) : tree.files.find? path = none := by
  cases hf : tree.files.find? path with
  | none => rfl
  | some file =>
    obtain ⟨old, hold, -⟩ | ⟨-, key, hkey, hread⟩ := loaded_moves hm hf
    · simp [Tree.empty] at hold
    · exact absurd hread ((h key hkey).2 _)

/-- The environment file is not configured, or it is not there. -/
def NoEnvironment (project : Project) (settings : SetupSettings) : Prop :=
  ∀ path, settings.project.environment = some path → project.view.Lacks path

theorem source_of_lacks {tree : Tree} (hm : Moves project .empty tree) {path : Path}
    (h : project.view.Lacks path) : ∃ error, tree.source project path = (.error error, tree) := by
  have hnone := find?_of_lacks hm h
  obtain ⟨file, hf, -⟩ | ⟨-, error, hl⟩ | ⟨text, -, -, hread, -⟩ := load_cases project tree path
  · rw [hnone] at hf
    cases hf
  · exact ⟨error, by simp only [Tree.source, hl]⟩
  · exact absurd hread ((h path (Path.same_refl path)).2 text)

/-- Without an environment file there is no place for the configuration. -/
theorem treeAt_two (h : settings.NoEnvironment project) :
    settings.treeAt project 2 = settings.treeAt project 1 := by
  have hm := moves_treeAt project settings 1
  have hunloaded := fun path he => source_of_lacks hm (h path he)
  exact (Recipe.environmentConfig settings.project settings.firebase).run_of_unloaded rfl hunloaded

/-- A file that is not there is not imported. -/
theorem importFrom_of_lacks {tree : Tree} (hm : Moves project .empty tree)
    (h : settings.NoEnvironment project) (identifier : String) (target : Path) :
    ∃ error, (ChangeSpec.importFrom identifier settings.project.environment).resolve project tree
      target = .error error := by
  cases he : settings.project.environment with
  | none => exact ⟨.missing none, rfl⟩
  | some path =>
    have hnone := find?_of_lacks hm (h path he)
    have hholds := (h path he path (Path.same_refl path)).1
    refine ⟨.missing (some path), ?_⟩
    simp [ChangeSpec.resolve, holds, PathMap.contains, hnone, hholds]

/-- So the step that imports it only loads the entry file. -/
theorem treeAt_three (h : settings.NoEnvironment project) :
    settings.treeAt project 3 = ((TargetFile.rootModuleOf settings.project.main).resolve project
      (settings.treeAt project 2)).2 := by
  have hm := (moves_treeAt project settings 2).trans
    (RecipeStep.moves_resolve project (settings.treeAt project 2)
      (.rootModuleOf settings.project.main))
  exact (Recipe.importEnvironment settings.project).run_of_unchosen
    fun target => importFrom_of_lacks hm h "environment" target

/-- The steps after that leave out the name that the root module does not bind. -/
theorem spares_of_unbound
    (hg : project.reader.GrowsBy (.insertImport "AngularFireModule" "@angular/fire"))
    (h : settings.NoEnvironment project)
    (hu : ∀ source, settings.IsRootModule project source →
      source.bindsValue "environment" = false) :
    Spares "environment" (settings.treeAt project 3) (settings.treeAt project 4) ∧
      Spares "environment" (settings.treeAt project 4) (settings.treeAt project 5) := by
  have hfour : settings.treeAt project 4 = ((Recipe.importAngularFire settings.project).run
      project (settings.treeAt project 3)).2 := rfl
  have hfive : settings.treeAt project 5 = ((Recipe.registerAngularFire settings.project).run
      project (settings.treeAt project 4)).2 := rfl
  rw [hfive, hfour]
  cases hr : ((TargetFile.rootModuleOf settings.project.main).resolve project
      (settings.treeAt project 2)).1 with
  | ok root =>
    have hthree : (settings.treeAt project 3).Unbound project settings.project.main root
        "environment" := by
      rw [treeAt_three h]
      exact unbound_of_resolve (fresh_treeAt project settings 2) hr fun source hs =>
        hu source ⟨root, hr, hs⟩
    obtain ⟨hunbound, hspares⟩ := Recipe.unbound_importAngularFire hg hthree
    exact ⟨hspares, Recipe.spares_registerAngularFire hunbound⟩
  | error error =>
    have hlost : (TargetFile.rootModuleOf settings.project.main).resolve project
        (settings.treeAt project 3) = (.error error, settings.treeAt project 3) := by
      rw [treeAt_three h, TargetFile.resolve_resolve, ← hr]
    have himport := (Recipe.importAngularFire settings.project).run_of_unfound hlost
    have hregister := (Recipe.registerAngularFire settings.project).run_of_unfound hlost
    rw [himport, hregister]
    exact ⟨.refl _ _, .refl _ _⟩

/-- From the manifest on, no text mentions an `environment` that the root module does not bind. -/
theorem spares_treeAt
    (hg : project.reader.GrowsBy (.insertImport "AngularFireModule" "@angular/fire"))
    (h : settings.NoEnvironment project)
    (hu : ∀ source, settings.IsRootModule project source →
      source.bindsValue "environment" = false) (n : Nat) :
    Spares "environment" (settings.treeAt project 1) (settings.treeAt project (n + 1)) := by
  have hthree : Spares "environment" (settings.treeAt project 1) (settings.treeAt project 3) := by
    rw [treeAt_three h, treeAt_two h]
    obtain he | ⟨main, he⟩ := TargetFile.resolve_tree project (settings.treeAt project 1)
      (.rootModuleOf settings.project.main)
    · rw [he]
      exact .refl _ _
    · rw [he]
      exact spares_load project _ _ main
  obtain ⟨himport, hregister⟩ := spares_of_unbound hg h hu
  match n with
  | 0 => exact .refl _ _
  | 1 =>
    rw [treeAt_two h]
    exact .refl _ _
  | 2 => exact hthree
  | 3 => exact hthree.trans himport
  | n + 4 =>
    rw [treeAt_all n]
    exact (hthree.trans himport).trans hregister

/-- Only the manifest has edits after the first step. -/
theorem history_treeAt_one {path : Path}
    (h : (settings.treeAt project 1).history path ≠ []) :
    ∃ manifest, settings.project.manifest = some manifest ∧ manifest.same path = true := by
  by_contra hnone
  push Not at hnone
  have hkeeps : Tree.Keeps project .empty (settings.treeAt project 1) path :=
    (Recipe.packageDependencies settings.project settings.versions).keeps_other
      fun manifest hm => Bool.eq_false_iff.2 (hnone manifest hm)
  exact h hkeeps.history

end SetupSettings

namespace SetupOutcome

open Codemod.Tree

variable {σ : Type}

/-- An outcome in which no registration goes without the name that it needs. -/
structure Guarded (project : Project) (settings : SetupSettings) (tree : Tree)
    (outcome : SetupOutcome) : Prop where
  /-- A registration that was made was planned for a file that binds the name. -/
  registered : ∀ entry ∈ outcome.report.steps, entry.step = "register-angular-fire" →
    entry.outcome = .success → ∃ target change source,
      (Recipe.registerAngularFire settings.project).PlansFor project (settings.treeAt project 4)
        target change source ∧ entry.target = some target ∧
      source.bindsValue "environment" = true
  /-- Without an environment file and without the name in the root module, no text has the word that
  is put into a file after the manifest. -/
  spared : settings.NoEnvironment project →
    (∀ source, settings.IsRootModule project source → source.bindsValue "environment" = false) →
    Spares "environment" (settings.treeAt project 1) tree
  /-- Until then only the manifest has edits. -/
  manifest : ∀ path, (settings.treeAt project 1).history path ≠ [] →
    ∃ manifest, settings.project.manifest = some manifest ∧ manifest.same path = true

/-- The tree at the end of a setup is that after some of its steps. -/
theorem exists_treeAt (sink : Sink σ) (stamp : RunStamp) (project : Project)
    (settings : SetupSettings) (state : σ) :
    ∃ n, lastTree sink stamp project settings state = settings.treeAt project (n + 1) := by
  obtain ⟨ran, rest, hs, haccounts⟩ := Report.accounts_ofRun sink stamp
    ((recipe settings).map (RecipeStep.toStep project)) .empty state
  have hran : ran = ((recipe settings).take ran.length).map (RecipeStep.toStep project) := by
    rw [List.map_take, hs, List.take_left]
  cases hlength : ran.length with
  | zero =>
    obtain rfl := List.eq_nil_of_length_eq_zero hlength
    have hrest : rest ≠ [] := by
      rintro rfl
      cases hs
    obtain ⟨entry, hentry, -⟩ := haccounts.halted hrest
    rw [haccounts.steps] at hentry
    cases hentry
  | succ n =>
    rw [hlength] at hran
    exact ⟨n, by rw [lastTree, haccounts.staged, hran]; rfl⟩

/-- A report of a setup is one on a step, in the state that the steps before it have left. -/
theorem exists_step (sink : Sink σ) (stamp : RunStamp) (tool : ToolInfo) (project : Project)
    (settings : SetupSettings) (state : σ) {entry : StepReport}
    (h : entry ∈ (ofRun sink stamp tool project settings state).1.report.steps) :
    ∃ n, ∃ step : RecipeStep, (recipe settings)[n]? = some step ∧
      entry = (step.toStep project).reportOn
        ((step.toStep project).run (settings.treeAt project n)).1 := by
  obtain ⟨ran, rest, hs, haccounts⟩ := Report.accounts_ofRun sink stamp
    ((recipe settings).map (RecipeStep.toStep project)) .empty state
  have hall : entry ∈ Step.reports ((recipe settings).map (RecipeStep.toStep project)) .empty := by
    rw [hs, Step.reports_append, ← haccounts.steps]
    exact List.mem_append_left _ h
  obtain ⟨n, made, hn, he⟩ := Step.exists_turn hall
  rw [List.getElem?_map] at hn
  obtain ⟨step, hstep, rfl⟩ := Option.map_eq_some_iff.1 hn
  refine ⟨n, step, hstep, ?_⟩
  rw [he, ← List.map_take]
  rfl

/-- A registration that was made was planned for a file that binds the name. -/
theorem registered_ofRun (sink : Sink σ) (stamp : RunStamp) (tool : ToolInfo) (project : Project)
    (settings : SetupSettings) (state : σ) {entry : StepReport}
    (h : entry ∈ (ofRun sink stamp tool project settings state).1.report.steps)
    (hname : entry.step = "register-angular-fire") (hsuccess : entry.outcome = .success) :
    ∃ target change source,
      (Recipe.registerAngularFire settings.project).PlansFor project (settings.treeAt project 4)
        target change source ∧ entry.target = some target ∧
      source.bindsValue "environment" = true := by
  obtain ⟨n, step, hn, rfl⟩ := exists_step sink stamp tool project settings state h
  rw [Step.step_reportOn, RecipeStep.toStep_name] at hname
  have hfour : n = 4 ∧ step = .patch (Recipe.registerAngularFire settings.project) := by
    match n with
    | 0 | 1 | 2 | 3 =>
      obtain rfl := Option.some.inj hn
      simp [RecipeStep.name, Recipe.packageDependencies, Recipe.environmentConfig,
        Recipe.importEnvironment, Recipe.importAngularFire] at hname
    | 4 => exact ⟨rfl, (Option.some.inj hn).symm⟩
    | n + 5 => cases hn
  obtain ⟨rfl, rfl⟩ := hfour
  have hcourse := PatchStep.course_run (SetupSettings.fresh_treeAt project settings 4)
    (Recipe.registerAngularFire settings.project)
  obtain ⟨target, change, source, hi, htarget⟩ := hcourse.inserts_of_success hsuccess
  refine ⟨target, change, source, hi.plans, htarget, ?_⟩
  have hbound := hi.bound
  simpa [PatchStep.lacking, Recipe.registerAngularFire, hi.absent] using hbound

/-- No registration goes without the name that it needs, whatever is found and whatever is set. -/
theorem guarded_ofRun (sink : Sink σ) (stamp : RunStamp) (tool : ToolInfo) (project : Project)
    (settings : SetupSettings) (state : σ)
    (hg : project.reader.GrowsBy (.insertImport "AngularFireModule" "@angular/fire")) :
    Guarded project settings (lastTree sink stamp project settings state)
      (ofRun sink stamp tool project settings state).1 := by
  refine ⟨fun entry => registered_ofRun sink stamp tool project settings state, ?_,
    fun path => SetupSettings.history_treeAt_one⟩
  intro hnone hunbound
  obtain ⟨n, hn⟩ := exists_treeAt sink stamp project settings state
  rw [hn]
  exact SetupSettings.spares_treeAt hg hnone hunbound n

/-- The staging area at the end of a setup whose reports nobody takes notice of. -/
def quietTree (project : Project) (settings : SetupSettings) : Tree :=
  lastTree (fun n _ => n) firstStamp project settings ()

def rootBinds (project : Project) (settings : SetupSettings) : Option Bool := do
  let found := (TargetFile.rootModuleOf settings.project.main).resolve project
    (settings.treeAt project 2)
  let root ← found.1.toOption
  let source ← (found.2.source project root).1.toOption
  return source.bindsValue "environment"

theorem bindsValue_of_isRootModule {project : Project} {settings : SetupSettings}
    (h : rootBinds project settings = some false) (source : SourceFile)
    (hs : settings.IsRootModule project source) : source.bindsValue "environment" = false := by
  obtain ⟨root, hr, hs⟩ := hs
  simpa [rootBinds, hr, hs, Except.toOption] using h

/-- The project with an empty entry file and an empty manifest, with a reader of one import. -/
def bareSources : Project := .ofTexts SingleImport.reader bareProject

theorem guarded_bareSources :
    bareSources.reader.GrowsBy (.insertImport "AngularFireModule" "@angular/fire") ∧
    Guarded bareSources bareSettings (quietTree bareSources bareSettings) (runOn bareProject) ∧
    Spares "environment" (bareSettings.treeAt bareSources 1) (quietTree bareSources bareSettings) ∧
    (quietTree bareSources bareSettings).staged.map (fun entry => entry.1.spelling) =
      ["main.ts", "package.json"] := by
  have hg : bareSources.reader.GrowsBy (.insertImport "AngularFireModule" "@angular/fire") :=
    SingleImport.grammatical_reader.growsBy .package
  have hguarded := guarded_ofRun (fun n _ => n) firstStamp ⟨"graft", none⟩ bareSources
    bareSettings () hg
  have hunbound : ∀ source, bareSettings.IsRootModule bareSources source →
      source.bindsValue "environment" = false := bindsValue_of_isRootModule (by decide +kernel)
  exact ⟨hg, hguarded, hguarded.spared nofun hunbound, by decide +kernel⟩

/-- A source file that got a text with a word in it. -/
def Mentions (word : String) (tree : Tree) (path : Path) : Prop :=
  (Language.ofPath? path).isSome = true ∧
    ∃ record ∈ tree.history path, word.toList <:+: record.inserted.toList

instance (word : String) (tree : Tree) (path : Path) : Decidable (Mentions word tree path) :=
  inferInstanceAs (Decidable (_ ∧ _))

def scriptSettings : SetupSettings :=
  { bareSettings with
    project := ⟨⟨"main.ts"⟩, none, some ⟨"m.ts"⟩⟩
    versions := ⟨"environment", "2"⟩ }

def scriptProject : Project :=
  .ofTexts CommandLine.blindReader
    ((PathMap.empty.insert ⟨"main.ts"⟩ "").insert ⟨"m.ts"⟩ "\x7b\x7d")

def spelledSettings : SetupSettings :=
  { bareSettings with project := ⟨⟨"main.ts"⟩, some ⟨"main.ts/"⟩, none⟩ }

def spelledProject : Project where
  view := {
    read := fun path => .ok (if path.spelling = "main.ts" then some "" else none)
    holds := fun path => path.spelling == "main.ts" }
  reader := CommandLine.blindReader

/-- A text with the word can come from the declarations in the manifest, and from a file that is
not there under the spelling that is configured. -/
theorem mentions_elsewhere :
    (scriptSettings.project.environment = none ∧
      rootBinds scriptProject scriptSettings = some false ∧
      Mentions "environment" (quietTree scriptProject scriptSettings) ⟨"m.ts"⟩) ∧
    (spelledSettings.project.environment = some ⟨"main.ts/"⟩ ∧
      spelledProject.view.holds ⟨"main.ts/"⟩ = false ∧
      (∀ text, spelledProject.view.read ⟨"main.ts/"⟩ ≠ .ok (some text)) ∧
      rootBinds spelledProject spelledSettings = some false ∧
      Mentions "environment" (quietTree spelledProject spelledSettings) ⟨"main.ts"⟩) :=
  ⟨⟨rfl, by decide +kernel, by decide +kernel⟩, rfl, by decide +kernel, nofun,
    by decide +kernel, by decide +kernel⟩

end SetupOutcome

end Codemod
