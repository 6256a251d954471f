import Codemod.Proofs.BoundNames

/-!
The files that a setup touches.

Each step has a place: the manifest, the environment file, or the root module that the entry file
leads to. The steps on the root module look for it again every time, so the entry file has to stay
as it was found. It does while no place is the entry file itself: a step leaves every file but its
place alone, and what it names is its place.
-/
namespace Codemod

/-- An entry file that is found and leads to a root module. -/
structure Project.Enters (project : Project) (main root : Path) (source : SourceFile) : Prop where
  found : project.view.read main = .ok (some source.text)
  read : SourceFile.read project.reader main source.text = .ok source
  root : source.rootModule = some root

/-- What is found there is analyzed as that source file. -/
theorem Project.Enters.analyze {project : Project} {main root : Path} {source : SourceFile}
    (h : project.Enters main root source) :
    analyze project.reader main source.text = .ok (some source) := by
  have hread := h.read
  unfold SourceFile.read at hread
  split at hread
  · rename_i language hlanguage
    simp only [Codemod.analyze, hlanguage, hread, Except.map]
  · cases hread

namespace Tree

variable {project : Project} {tree mid last : Tree} {main root : Path} {source : SourceFile}

theorem Keeps.of_find?_eq {path : Path} (h : Keeps project tree mid path)
    (he : last.files.find? path = mid.files.find? path) : Keeps project tree last path :=
  ⟨fun file hf => he.trans (h.kept file hf), fun file hf => h.found file (he ▸ hf)⟩

/-- The entry file is not staged yet, or it is staged as it was found. -/
def EntryAsFound (main : Path) (source : SourceFile) (tree : Tree) : Prop :=
  tree.files.find? main = none ∨ tree.files.find? main = some (fileOf source.text (some source))

theorem EntryAsFound.of_find?_eq (h : tree.EntryAsFound main source)
    (he : last.files.find? main = tree.files.find? main) : last.EntryAsFound main source := by
  rwa [EntryAsFound, he]

/-- Looking for the root module stages the entry file and comes to the same module each time. -/
theorem EntryAsFound.resolve (h : tree.EntryAsFound main source)
    (hp : project.Enters main root source) :
    ((TargetFile.rootModuleOf main).resolve project tree).1 = .ok root ∧
      ((TargetFile.rootModuleOf main).resolve project tree).2.EntryAsFound main source := by
  have hload : ∃ staged, tree.load project main = (.ok (fileOf source.text (some source)), staged) ∧
      staged.files.find? main = some (fileOf source.text (some source)) := by
    rcases h with hnone | hsome
    · refine ⟨⟨tree.files.insert main (fileOf source.text (some source))⟩, ?_,
        PathMap.find?_insert_self ..⟩
      simp [load, hnone, hp.found, StagedFile.ofText, hp.analyze, Except.map, fileOf]
    · exact ⟨tree, by simp [load, hsome], hsome⟩
  obtain ⟨staged, hl, hs⟩ := hload
  have hresolve : (TargetFile.rootModuleOf main).resolve project tree = (.ok root, staged) := by
    simp [TargetFile.resolve, Tree.source, hl, fileOf, hp.root]
  rw [hresolve]
  exact ⟨rfl, .inr hs⟩

end Tree

section steps

open Codemod.Tree

variable {project : Project} {tree : Tree}

namespace PatchStep

variable {step : PatchStep}

/-- A step names the file that it has found. -/
theorem target_of_patch {target : Path} {change : Change} {output : StepOutput} {last : Tree}
    (h : step.patch project target change tree = (.ok output, last)) : output.target = target := by
  unfold patch at h
  split at h
  · cases h
  · split at h
    · cases h
    · split at h <;> cases h
      rfl

theorem target_of_run {output : StepOutput} {last : Tree}
    (h : step.run project tree = (.ok output, last)) :
    (step.target.resolve project tree).1 = .ok output.target := by
  have hways := runsTo_run project step tree
  rw [h] at hways
  generalize hr : (Except.ok output, last) = result at hways
  cases hways with
  | unfound | unchosen => cases hr
  | patched ht _ => rw [ht, target_of_patch hr.symm]

/-- Once its file is found, a step leaves every other file alone. -/
theorem find?_run_other (h : tree.Fresh project.reader) (step : PatchStep) {path : Path}
    (hp : ∀ target, (step.target.resolve project tree).1 = .ok target →
      target.same path = false) :
    (step.run project tree).2.files.find? path =
      (step.target.resolve project tree).2.files.find? path := by
  have hcourse := course_run h step
  generalize step.run project tree = result at hcourse
  cases hcourse with
  | halted error => rfl
  | idle ht _ => exact find?_load_other (hp _ ht)
  | @applied target _ source _ _ hi =>
    have hother := hp target hi.plans.found
    obtain ⟨file, anchor, piece, rationale, source', -, -, hsame, -, rfl⟩ := hi.brought
    have hpath : source.path.same path = false := by
      rw [Path.same_comm, Path.same_congr hsame, Path.same_comm, hother]
    rw [PathMap.find?_insert, hpath]
    exact find?_load_other hother

end PatchStep

namespace ManifestStep

/-- So does a step that declares dependencies. -/
theorem find?_run_other (step : ManifestStep) {path : Path}
    (hp : ∀ manifest, step.manifest = some manifest → manifest.same path = false) :
    (step.run project tree).2.files.find? path = tree.files.find? path := by
  have hways := step.runsTo_run project tree
  generalize step.run project tree = result at hways ⊢
  cases hways with
  | unnamed => rfl
  | refused _ hm | unchanged _ hm => exact find?_load_other (hp _ hm)
  | staged hm =>
    rw [PathMap.find?_insert, hp _ hm]
    exact find?_load_other (hp _ hm)

end ManifestStep

namespace RecipeStep

variable {main root : Path} {source : SourceFile}

/-- The file that a step works in, where the root module is a given one. -/
def place (root : Path) : RecipeStep → Option Path
  | declare step => step.manifest
  | patch step =>
    match step.target with
    | .file path => path
    | .rootModuleOf _ => some root

/-- A step that looks for the root module asks a given entry file, and it works in another one. -/
structure Spares (main root : Path) (step : RecipeStep) : Prop where
  entry : ∀ patch other, step = .patch patch → patch.target = .rootModuleOf other → other = main
  apart : ∀ path, step.place root = some path → path.same main = false

/-- What a step leaves behind that works in its place alone. -/
structure Stays (project : Project) (main root : Path) (source : SourceFile) (step : RecipeStep)
    (tree : Tree) (result : Except StepError StepOutput × Tree) : Prop where
  entry : result.2.EntryAsFound main source
  named : ∀ output, result.1 = .ok output → step.place root = some output.target
  others : ∀ path, (∀ place, step.place root = some place → place.same path = false) →
    Tree.Keeps project tree result.2 path

/-- What looking for the file of a step comes to while the entry file is as it was found. -/
theorem resolve_of_spares (hp : project.Enters main root source)
    (he : tree.EntryAsFound main source) {step : PatchStep} (hs : (patch step).Spares main root) :
    (∀ target, (step.target.resolve project tree).1 = .ok target →
      (patch step).place root = some target) ∧
    (step.target.resolve project tree).2.EntryAsFound main source := by
  cases ht : step.target with
  | file given =>
    cases given with
    | none => exact ⟨nofun, he⟩
    | some path =>
      refine ⟨?_, he⟩
      rintro target hok
      rw [place, ht, Except.ok.inj hok]
  | rootModuleOf other =>
    obtain rfl := hs.entry step other rfl ht
    obtain ⟨hroot, hentry⟩ := he.resolve hp
    refine ⟨?_, hentry⟩
    intro target hok
    rw [place, ht, Except.ok.inj (hroot.symm.trans hok)]

/-- A step works in its place alone, and the entry file stays as it was found. -/
theorem stays_run (hp : project.Enters main root source) (hf : tree.Fresh project.reader)
    (he : tree.EntryAsFound main source) {step : RecipeStep} (hs : step.Spares main root) :
    Stays project main root source step tree ((step.toStep project).run tree) := by
  cases step with
  | declare step =>
    change Stays project main root source _ tree (step.run project tree)
    refine ⟨he.of_find?_eq (step.find?_run_other hs.apart), ?_, fun path => step.keeps_other⟩
    intro output hok
    exact ManifestStep.target_of_run (Prod.ext hok rfl)
  | patch step =>
    change Stays project main root source _ tree (step.run project tree)
    obtain ⟨hplace, hentry⟩ := resolve_of_spares hp he hs
    have hother : ∀ {path : Path},
        (∀ place, (patch step).place root = some place → place.same path = false) →
        (step.run project tree).2.files.find? path =
          (step.target.resolve project tree).2.files.find? path := fun hpath =>
      PatchStep.find?_run_other hf step fun target ht => hpath target (hplace target ht)
    refine ⟨hentry.of_find?_eq (hother hs.apart), ?_, ?_⟩
    · intro output hok
      exact hplace output.target (PatchStep.target_of_run (Prod.ext hok rfl))
    · intro path hpath
      have hkeeps : Tree.Keeps project tree (step.target.resolve project tree).2 path := by
        obtain hr | ⟨loaded, hr⟩ := step.target.resolve_tree project tree
        · rw [hr]
          exact .refl tree path
        · rw [hr]
          exact keeps_load project tree loaded path
      exact hkeeps.of_find?_eq (hother hpath)

/-- After several steps the entry file is as it was found, and so is whatever none of them works
in. -/
theorem entry_treeAfter (hp : project.Enters main root source) {steps : List RecipeStep}
    (hf : tree.Fresh project.reader) (he : tree.EntryAsFound main source)
    (hs : ∀ step ∈ steps, step.Spares main root) :
    (Step.treeAfter (steps.map (toStep project)) tree).EntryAsFound main source ∧
      ∀ path, (∀ step ∈ steps, ∀ place, step.place root = some place → place.same path = false) →
        Tree.Keeps project tree (Step.treeAfter (steps.map (toStep project)) tree) path := by
  induction steps generalizing tree with
  | nil => exact ⟨he, fun path _ => .refl tree path⟩
  | cons step rest ih =>
    obtain ⟨hstep, hrest⟩ := List.forall_mem_cons.1 hs
    have hstays := stays_run hp hf he hstep
    have hfresh : ((step.toStep project).run tree).2.Fresh project.reader :=
      (moves_run step tree).keeps fresh_move hf
    obtain ⟨hentry, hkeeps⟩ := ih hfresh hstays.entry hrest
    refine ⟨hentry, ?_⟩
    intro path hpath
    obtain ⟨hfirst, hlater⟩ := List.forall_mem_cons.1 hpath
    exact (hstays.others path hfirst).trans (hkeeps path hlater)

end RecipeStep

end steps

namespace SetupSettings

open Codemod.Tree

variable {project : Project} {settings : SetupSettings} {root : Path} {source : SourceFile}

/-- The entry file is none of the files that a setup works in. -/
structure EntryApart (settings : SetupSettings) (root : Path) : Prop where
  root : root.same settings.project.main = false
  environment : ∀ path, settings.project.environment = some path →
    path.same settings.project.main = false
  manifest : ∀ path, settings.project.manifest = some path →
    path.same settings.project.main = false

/-- The places of the steps of a setup. -/
theorem place_of_mem {step : RecipeStep} (h : step ∈ SetupOutcome.recipe settings) {path : Path}
    (hp : step.place root = some path) :
    settings.project.manifest = some path ∨ settings.project.environment = some path ∨
      path = root := by
  simp only [SetupOutcome.recipe, Recipe.firebase, List.mem_cons, List.not_mem_nil, or_false] at h
  rcases h with rfl | rfl | rfl | rfl | rfl
  · exact .inl hp
  · exact .inr (.inl hp)
  · exact .inr (.inr (Option.some.inj hp).symm)
  · exact .inr (.inr (Option.some.inj hp).symm)
  · exact .inr (.inr (Option.some.inj hp).symm)

theorem spares_of_mem (h : settings.EntryApart root) :
    ∀ step ∈ SetupOutcome.recipe settings, step.Spares settings.project.main root := by
  intro step hstep
  refine ⟨?_, ?_⟩
  · simp only [SetupOutcome.recipe, Recipe.firebase, List.mem_cons, List.not_mem_nil,
      or_false] at hstep
    rintro patch other rfl ht
    simp only [reduceCtorEq, RecipeStep.patch.injEq, false_or] at hstep
    rcases hstep with rfl | rfl | rfl | rfl <;> cases ht <;> rfl
  · intro path hp
    obtain hm | he | rfl := place_of_mem hstep hp
    · exact h.manifest path hm
    · exact h.environment path he
    · exact h.root

/-- After each step the entry file is as it was found, and so is whatever the setup does not work
in. -/
theorem entry_treeAt (hp : project.Enters settings.project.main root source)
    (h : settings.EntryApart root) (n : Nat) :
    (settings.treeAt project n).EntryAsFound settings.project.main source ∧
      ∀ path, (∀ step ∈ SetupOutcome.recipe settings, ∀ place, step.place root = some place →
        place.same path = false) → Tree.Keeps project .empty (settings.treeAt project n) path := by
  have hspares : ∀ step ∈ (SetupOutcome.recipe settings).take n,
      step.Spares settings.project.main root :=
    fun step hstep => spares_of_mem h step (List.mem_of_mem_take hstep)
  obtain ⟨hentry, hkeeps⟩ := RecipeStep.entry_treeAfter hp fresh_empty (.inl rfl) hspares
  exact ⟨hentry, fun path hpath =>
    hkeeps path fun step hstep => hpath step (List.mem_of_mem_take hstep)⟩

end SetupSettings

namespace SetupOutcome

open Source Codemod.Tree

variable {σ : Type}

/-- The names of the steps on the root module. -/
def rootSteps : List String :=
  ["import-environment", "import-angular-fire", "register-angular-fire"]

/-- An outcome that is about the files of a setup and no others. -/
structure Confined (project : Project) (settings : SetupSettings) (root : Path)
    (source : SourceFile) (tree : Tree) (outcome : SetupOutcome) : Prop where
  /-- A step on the root module that names a file names that one. -/
  named : ∀ entry ∈ outcome.report.steps, entry.step ∈ rootSteps →
    ∀ target, entry.target = some target → target = root
  /-- The entry file has the text that it was found with, before and after every step. -/
  entry : ∀ n file, (settings.treeAt project n).files.find? settings.project.main = some file →
    file.text = source.text ∧ file.loaded = source.text ∧ file.history = []
  /-- One of these states is the last one. -/
  last : ∃ n, tree = settings.treeAt project n
  /-- Only the manifest, the environment file and the root module are staged with a new text. -/
  staged : ∀ entry ∈ outcome.staged,
    (∃ path, settings.project.manifest = some path ∧ path.same entry.1 = true) ∨
    (∃ path, settings.project.environment = some path ∧ path.same entry.1 = true) ∨
    root.same entry.1 = true

/-- A step on the root module that is executed names no other file. -/
theorem named_ofRun (sink : Sink σ) (stamp : RunStamp) (tool : ToolInfo) {project : Project}
    {settings : SetupSettings} (state : σ) {root : Path} {source : SourceFile}
    (hp : project.Enters settings.project.main root source) (h : settings.EntryApart root)
    {entry : StepReport}
    (hentry : entry ∈ (ofRun sink stamp tool project settings state).1.report.steps)
    (hname : entry.step ∈ rootSteps) {target : Path} (ht : entry.target = some target) :
    target = root := by
  obtain ⟨n, step, hn, rfl⟩ := exists_step sink stamp tool project settings state hentry
  have hstays := RecipeStep.stays_run hp (SetupSettings.fresh_treeAt project settings n)
    (SetupSettings.entry_treeAt hp h n).1
    (SetupSettings.spares_of_mem h step (List.mem_of_getElem? hn))
  rw [Step.step_reportOn, RecipeStep.toStep_name] at hname
  have hplace : step.place root = some target := by
    cases hr : ((step.toStep project).run (settings.treeAt project n)).1 with
    | error error =>
      rw [hr] at ht
      cases ht
    | ok output =>
      rw [hr] at ht
      obtain rfl := Option.some.inj ht
      exact hstays.named output hr
  match n with
  | 0 | 1 =>
    obtain rfl := Option.some.inj hn
    simp [RecipeStep.name, Recipe.packageDependencies, Recipe.environmentConfig,
      rootSteps] at hname
  | 2 | 3 | 4 =>
    obtain rfl := Option.some.inj hn
    exact (Option.some.inj hplace).symm
  | n + 5 => cases hn

/-- A setup is about its own files and no others, where the entry file leads to a root module and is
none of them itself. -/
theorem confined_ofRun (sink : Sink σ) (stamp : RunStamp) (tool : ToolInfo) (project : Project)
    (settings : SetupSettings) (state : σ) {root : Path} {source : SourceFile}
    (hp : project.Enters settings.project.main root source) (h : settings.EntryApart root) :
    Confined project settings root source (lastTree sink stamp project settings state)
      (ofRun sink stamp tool project settings state).1 := by
  obtain ⟨n, hlast⟩ := exists_treeAt sink stamp project settings state
  refine ⟨?_, ?_, ⟨n + 1, hlast⟩, ?_⟩
  · intro entry hentry hname target
    exact named_ofRun sink stamp tool state hp h hentry hname
  · intro n file hf
    rcases (SetupSettings.entry_treeAt hp h n).1 with hnone | hsome
    · rw [hnone] at hf
      cases hf
    · obtain rfl := Option.some.inj (hsome.symm.trans hf)
      exact ⟨rfl, rfl, rfl⟩
  · rintro ⟨path, text⟩ hstaged
    have hmem : (path, text) ∈ (settings.treeAt project (n + 1)).staged := hlast ▸ hstaged
    obtain ⟨⟨key, file⟩, hchanged, he⟩ := List.mem_map.1 hmem
    obtain ⟨rfl, -⟩ := Prod.mk.inj he
    obtain ⟨hentry, hdiffers⟩ := List.mem_filter.1 hchanged
    have hordered : (settings.treeAt project (n + 1)).files.Ordered :=
      (SetupSettings.moves_treeAt project settings (n + 1)).keeps
        (P := fun tree => tree.files.Ordered) Tree.ordered_move PathMap.ordered_empty
    have hfind := hordered.find?_of_mem hentry
    by_contra hnone
    push Not at hnone
    obtain ⟨hmanifest, henvironment, hroot⟩ := hnone
    have hkeeps := (SetupSettings.entry_treeAt hp h (n + 1)).2 key fun step hstep place hplace => by
      obtain hm | he | rfl := SetupSettings.place_of_mem hstep hplace
      · exact Bool.eq_false_iff.2 (hmanifest place hm)
      · exact Bool.eq_false_iff.2 (henvironment place he)
      · exact Bool.eq_false_iff.2 hroot
    cases hkeeps.found file hfind with
    | staged hold => cases hold
    | found => simp [StagedFile.isChanged, fileOf] at hdiffers

def relayEntry : SourceFile where
  path := ⟨"main.ts"⟩
  language := .typeScript
  text := "import \x7b A \x7d from \x27./a\x27;\np.bootstrapModule(A);\n"
  root := .ofGrammar "program" 0 47
    [.ofGrammar "import_statement" 0 24
      [.ofGrammar "import_clause" 7 12
        [.ofGrammar "named_imports" 7 12
          [.ofGrammar "import_specifier" 9 10
            [(Node.ofGrammar "identifier" 9 10 []).filling "name"]]],
        (Node.ofGrammar "string" 18 23 []).filling "source"],
    .ofGrammar "expression_statement" 25 46
      [.ofGrammar "call_expression" 25 45
        [(Node.ofGrammar "member_expression" 25 42
          [(Node.ofGrammar "property_identifier" 27 42 []).filling "property"]).filling "function",
        (Node.ofGrammar "arguments" 42 45
          [.ofGrammar "identifier" 43 44 []]).filling "arguments"]]]

def relayProject : Project where
  view := .ofTexts (.ofList [(⟨"main.ts"⟩, relayEntry.text), (⟨"a.ts"⟩, ""), (⟨"env.ts"⟩, ""),
    (⟨"package.json"⟩, "\x7b\x7d")])
  reader := fun _ text =>
    if text = relayEntry.text then some relayEntry.root else some (.ofGrammar "program" 0 0 [])

def relaySettings : SetupSettings :=
  { bareSettings with
    project := ⟨⟨"main.ts"⟩, some ⟨"env.ts"⟩, some ⟨"package.json"⟩⟩ }

theorem confined_relayProject :
    relayProject.Enters relaySettings.project.main ⟨"a.ts"⟩ relayEntry ∧
    relaySettings.EntryApart ⟨"a.ts"⟩ ∧
    Confined relayProject relaySettings ⟨"a.ts"⟩ relayEntry (quietTree relayProject relaySettings)
      (ofRun (fun n _ => n) firstStamp ⟨"graft", none⟩ relayProject relaySettings ()).1 ∧
    (ofRun (fun n _ => n) firstStamp ⟨"graft", none⟩ relayProject relaySettings ()).1.staged.map
      (fun entry => entry.1.spelling) = ["a.ts", "package.json"] := by
  have hlanguage : Language.ofPath? relaySettings.project.main = some .typeScript := by
    decide +kernel
  have hread : SourceFile.read relayProject.reader relaySettings.project.main relayEntry.text =
      .ok relayEntry := by
    simp only [SourceFile.read, hlanguage, SourceFile.readAs, relayProject, if_true]
    rfl
  have hp : relayProject.Enters relaySettings.project.main ⟨"a.ts"⟩ relayEntry :=
    ⟨by rfl, hread, by decide +kernel⟩
  have hapart : relaySettings.EntryApart ⟨"a.ts"⟩ := by
    refine ⟨by decide +kernel, ?_, ?_⟩
    · rintro path ⟨⟩
      decide +kernel
    · rintro path ⟨⟩
      decide +kernel
  exact ⟨hp, hapart, confined_ofRun (fun n _ => n) firstStamp ⟨"graft", none⟩ relayProject
    relaySettings () hp hapart, by decide +kernel⟩

end SetupOutcome

end Codemod
