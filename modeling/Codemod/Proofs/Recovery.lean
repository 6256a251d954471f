import Codemod.Proofs.RunAccounts
import Codemod.Proofs.StepFrames

/-!
What patching leaves of the texts it began with.

A patch step loads files and then puts one text into one of them or changes nothing; it never takes
anything away. So the text that a file came with is there after any number of runs, with other texts
put between its characters: the edits can be undone, the last one first. Every edit belongs to a
step that was applied to the file, and a file that no step was applied to is as it was found.
-/
namespace Codemod

namespace EditRecord

/-- Deletes what an edit inserted. -/
def undo? (record : EditRecord) (text : String) : Option String :=
  Text.replaceAt? text record.offset (Text.size record.inserted) ""

/-- Deletes what several edits inserted, the last edit first. -/
def undoAll? (records : List EditRecord) (text : String) : Option String :=
  records.reverse.foldlM (fun text record => record.undo? text) text

/-- The last edit is undone before the others. -/
theorem undoAll?_concat (records : List EditRecord) (record : EditRecord) (text : String) :
    undoAll? (records ++ [record]) text = (record.undo? text).bind (undoAll? records) := by
  simp only [undoAll?, List.reverse_append, List.reverse_singleton, List.singleton_append,
    List.foldlM_cons]
  rfl

theorem undo?_of_insertAt? {record : EditRecord} {text next : String}
    (h : Text.insertAt? text record.offset record.inserted = some next) :
    record.undo? next = some text := by
  obtain ⟨a, b, hs, ha, rfl⟩ := Text.insertAt?_eq_some_iff.1 h
  refine Text.replaceAt?_eq_some_iff.2 ⟨a, record.inserted.toList, b, by simp, ha, rfl, ?_⟩
  rw [← String.toList_inj, hs]
  simp

end EditRecord

theorem Text.sublist_of_insertAt? {s t piece : String} {offset : Nat}
    (h : insertAt? s offset piece = some t) : s.toList.Sublist t.toList := by
  obtain ⟨a, b, hs, -, rfl⟩ := insertAt?_eq_some_iff.1 h
  rw [hs, String.toList_ofList]
  exact (List.sublist_append_left a piece.toList).append (List.Sublist.refl b)

/-- A file whose edits took nothing away, so that they can be undone. -/
structure StagedFile.Grown (file : StagedFile) : Prop where
  inserts : ∀ record ∈ file.history, record.removed = 0
  undone : EditRecord.undoAll? file.history file.text = some file.loaded
  kept : file.loaded.toList.Sublist file.text.toList

namespace Tree

variable {project : Project}

theorem grown_fileOf (text : String) (source : Option SourceFile) : (fileOf text source).Grown :=
  ⟨nofun, rfl, List.Sublist.refl _⟩

/-- One more text may be put into a file. -/
theorem grown_edited {file : StagedFile} (h : file.Grown) {offset : Nat}
    {piece rationale text : String} (ht : Text.insertAt? file.text offset piece = some text)
    (source : Option SourceFile) :
    (edited file text source [⟨offset, 0, piece, rationale⟩]).Grown := by
  refine ⟨?_, ?_, h.kept.trans (Text.sublist_of_insertAt? ht)⟩
  · intro record hmem
    rcases List.mem_append.1 hmem with hold | hnew
    · exact h.inserts record hold
    · rw [List.mem_singleton.1 hnew]
  · have hlast : EditRecord.undo? ⟨offset, 0, piece, rationale⟩ text = some file.text :=
      EditRecord.undo?_of_insertAt? ht
    change EditRecord.undoAll? (file.history ++ [⟨offset, 0, piece, rationale⟩]) text =
      some file.loaded
    rw [EditRecord.undoAll?_concat, hlast]
    exact h.undone

/-- Files were loaded and nothing else was done. -/
structure Loads (project : Project) (tree tree' : Tree) : Prop where
  moves : Moves project tree tree'
  keeps : ∀ path, Keeps project tree tree' path

theorem Loads.refl (tree : Tree) : Loads project tree tree := ⟨.refl tree, Keeps.refl tree⟩

theorem Loads.trans {tree mid last : Tree} (h : Loads project tree mid)
    (h' : Loads project mid last) : Loads project tree last :=
  ⟨h.moves.trans h'.moves, fun path => (h.keeps path).trans (h'.keeps path)⟩

theorem loads_load (project : Project) (tree : Tree) (path : Path) :
    Loads project tree (tree.load project path).2 :=
  ⟨load_moves project tree path, keeps_load project tree path⟩

/-- What a patch step answers and leaves behind. -/
inductive Patches (project : Project) (tree : Tree) : Except StepError StepOutput × Tree → Prop
  /-- Nothing was applied. -/
  | loads {answer : Except StepError StepOutput} {tree' : Tree} : Loads project tree tree' →
    (∀ output, answer = .ok output → output.applied = false) → Patches project tree (answer, tree')
  /-- A text was put into the file that the answer names, by whichever spelling of its path. -/
  | inserts {mid : Tree} {path target : Path} {file : StagedFile} {offset : Nat}
      {piece rationale text detail : String} {source : Option SourceFile} :
    Loads project tree mid → mid.files.find? path = some file → path.same target = true →
    Text.insertAt? file.text offset piece = some text →
    analyze project.reader path text = .ok source →
    Patches project tree (.ok ⟨target, true, detail⟩,
      ⟨mid.files.insert path (edited file text source [⟨offset, 0, piece, rationale⟩])⟩)

theorem patches_error {tree tree' : Tree} (h : Loads project tree tree') (error : StepError) :
    Patches project tree (.error error, tree') := .loads h nofun

/-- What was loaded on the way belongs to the step. -/
theorem Patches.of_loads {tree mid : Tree} {result : Except StepError StepOutput × Tree}
    (h : Loads project tree mid) (hr : Patches project mid result) :
    Patches project tree result := by
  cases hr with
  | loads hl ha => exact .loads (h.trans hl) ha
  | inserts hl hf hs ht ha => exact .inserts (h.trans hl) hf hs ht ha

end Tree

namespace PatchStep

open Codemod.Tree

variable {project : Project} {tree : Tree}

theorem patches_patch (h : tree.Fresh project.reader) (step : PatchStep) (target : Path)
    (change : Change) : Patches project tree (step.patch project target change tree) := by
  have hloads := loads_load project tree target
  have hways := patchesTo_patch h step target change
  generalize step.patch project target change tree = result at hways
  cases hways with
  | refused error => exact patches_error hloads error
  | present =>
    refine .loads hloads ?_
    rintro output ⟨⟩
    rfl
  | inserted hf _ hs _ _ hi ha => exact .inserts hloads ((PathMap.find?_congr hs _).trans hf) hs hi ha

/-- Whatever a patch step answers, it loaded files and put at most one text into one of them. -/
theorem patches_run (h : tree.Fresh project.reader) (step : PatchStep) :
    Patches project tree (step.run project tree) := by
  have hloads : Loads project tree (step.target.resolve project tree).2 := by
    obtain he | ⟨main, he⟩ := step.target.resolve_tree project tree
    · rw [he]
      exact .refl tree
    · rw [he]
      exact loads_load project tree main
  have hfresh : (step.target.resolve project tree).2.Fresh project.reader :=
    hloads.moves.keeps fresh_move h
  have hways := runsTo_run project step tree
  generalize step.run project tree = result at hways
  cases hways with
  | unfound | unchosen => exact patches_error hloads _
  | patched => exact (patches_patch hfresh step _ _).of_loads hloads

end PatchStep

def StepReport.edited? (entry : StepReport) : Option Path :=
  if entry.outcome = .success then entry.target else none

/-- The files that the steps of a run were applied to, one for each such step. -/
def Report.edited (report : Report) : List Path := report.steps.filterMap StepReport.edited?

namespace Tree

variable {project : Project}

/-- What is left of a file that was found, after steps were applied to some targets. -/
structure Recovers (project : Project) (targets : List Path) (path : Path) (file : StagedFile) :
    Prop where
  /-- The first text is the one found under a spelling of the path. -/
  found : ∃ spelled, spelled.same path = true ∧
    project.view.read spelled = .ok (some file.loaded)
  grown : file.Grown
  /-- There is one edit for each step that was applied to the file. -/
  edits : file.history.length = targets.countP fun target => target.same path
  /-- A file that no step was applied to is as it was found. -/
  untouched : (∀ target ∈ targets, target.same path = false) → file.text = file.loaded

/-- Every staged file goes back to what was found for it, and all targets are staged. -/
structure Recoverable (project : Project) (targets : List Path) (tree : Tree) : Prop where
  fresh : tree.Fresh project.reader
  recovers : ∀ path file, tree.files.find? path = some file → Recovers project targets path file
  staged : ∀ target ∈ targets, ∃ file, tree.files.find? target = some file

theorem recoverable_empty : empty.Recoverable project [] := ⟨fresh_empty, nofun, nofun⟩

/-- A file without edits is one that nothing was done to. -/
theorem Recovers.of_grown {targets : List Path} {path : Path} {file : StagedFile}
    (hf : ∃ spelled, spelled.same path = true ∧ project.view.read spelled = .ok (some file.loaded))
    (hg : file.Grown) (he : file.history.length = targets.countP fun target => target.same path) :
    Recovers project targets path file := by
  refine ⟨hf, hg, he, ?_⟩
  intro hnone
  have hzero : (targets.countP fun target => target.same path) = 0 := by
    rw [List.countP_eq_zero]
    intro target ht
    simp [hnone target ht]
  have hnil : file.history = [] := List.eq_nil_of_length_eq_zero (he.trans hzero)
  have hundone := hg.undone
  rw [hnil] at hundone
  exact Option.some.inj hundone

/-- Loading adds files that nothing was done to. -/
theorem Recoverable.loads {targets : List Path} {tree tree' : Tree}
    (h : tree.Recoverable project targets) (hl : Loads project tree tree') :
    tree'.Recoverable project targets := by
  refine ⟨hl.moves.keeps fresh_move h.fresh, ?_, ?_⟩
  · intro path file hf
    cases (hl.keeps path).found file hf with
    | staged hold => exact h.recovers path file hold
    | @found spelled text source hnone hs hr _ =>
      refine .of_grown ⟨spelled, hs, hr⟩ (grown_fileOf text source) ?_
      have hcount : (targets.countP fun target => target.same path) = 0 := by
        rw [List.countP_eq_zero]
        intro target ht hsame
        obtain ⟨file, hfile⟩ := h.staged target ht
        rw [PathMap.find?_congr hsame, hnone] at hfile
        cases hfile
      rw [hcount]
      rfl
  · intro target ht
    obtain ⟨file, hfile⟩ := h.staged target ht
    exact ⟨file, (hl.keeps target).kept file hfile⟩

/-- A text that is put into a staged file adds one target. -/
theorem Recoverable.insert {targets : List Path} {tree : Tree}
    (h : tree.Recoverable project targets) {path target : Path} {file : StagedFile}
    (hf : tree.files.find? path = some file) (hs : path.same target = true) {offset : Nat}
    {piece rationale text : String} (ht : Text.insertAt? file.text offset piece = some text)
    {source : Option SourceFile} (ha : analyze project.reader path text = .ok source) :
    Recoverable project (targets ++ [target]) ⟨tree.files.insert path
      (edited file text source [⟨offset, 0, piece, rationale⟩])⟩ := by
  have hold := h.recovers path file hf
  have hone : ∀ q, path.same q = target.same q := by
    intro q
    rw [Path.same_comm path, Path.same_comm target, Path.same_congr hs]
  refine ⟨fresh_insert h.fresh ha, ?_, ?_⟩
  · intro q other hq
    rw [PathMap.find?_insert, hone] at hq
    cases hsame : target.same q with
    | true =>
      rw [if_pos hsame] at hq
      obtain rfl := Option.some.inj hq
      have hpath : path.same q = true := (hone q).trans hsame
      obtain ⟨spelled, hspelled, hr⟩ := hold.found
      refine .of_grown ⟨spelled, Path.same_trans hspelled hpath, hr⟩ (grown_edited hold.grown ht
        source) ?_
      have hcongr : (fun target : Path => target.same path) = fun target => target.same q :=
        funext fun target => Path.same_congr hpath target
      simp [edited, hold.edits, hcongr, hsame]
    | false =>
      rw [if_neg (by simp [hsame])] at hq
      have hother := h.recovers q other hq
      refine .of_grown hother.found hother.grown ?_
      simp [hother.edits, hsame]
  · intro found hmem
    simp only [PathMap.find?_insert]
    split
    · exact ⟨_, rfl⟩
    · rename_i hne
      rcases List.mem_append.1 hmem with hmem | hmem
      · exact h.staged found hmem
      · rw [List.mem_singleton.1 hmem] at hne
        exact absurd hs hne

/-- What a patch step does adds the file that it answers to be applied to. -/
theorem Recoverable.patches {targets : List Path} {tree : Tree}
    (h : tree.Recoverable project targets) (step : Step)
    {result : Except StepError StepOutput × Tree} (hr : Patches project tree result) :
    result.2.Recoverable project (targets ++ (step.reportOn result.1).edited?.toList) := by
  cases hr with
  | @loads answer tree' hl ha =>
    have hnone : (step.reportOn answer).edited? = none := by
      cases answer with
      | ok output => simp [Step.reportOn, StepReport.edited?, ha output rfl]
      | error error =>
        cases hs : error.skipsStep <;> cases hp : step.policy <;>
          simp [Step.reportOn, StepReport.edited?, Step.failure, hs, hp, FailurePolicy.outcome]
    rw [hnone, Option.toList_none, List.append_nil]
    exact h.loads hl
  | inserts hl hf hs ht ha =>
    simpa [Step.reportOn, StepReport.edited?] using (h.loads hl).insert hf hs ht ha

/-- Patch steps one after another keep every file recoverable. -/
theorem Recoverable.steps {targets : List Path} {tree : Tree}
    (h : tree.Recoverable project targets) (steps : List PatchStep) :
    (Step.treeAfter (steps.map (PatchStep.toStep project)) tree).Recoverable project (targets ++
      (Step.reports (steps.map (PatchStep.toStep project)) tree).filterMap StepReport.edited?) := by
  induction steps generalizing targets tree with
  | nil => simpa [Step.treeAfter, Step.reports, Step.turns] using h
  | cons step rest ih =>
    have hrest := ih (h.patches (step.toStep project) (PatchStep.patches_run h.fresh step))
    have hreports : Step.reports ((step :: rest).map (PatchStep.toStep project)) tree =
        (step.toStep project).reportOn (step.run project tree).1 ::
          Step.reports (rest.map (PatchStep.toStep project)) (step.run project tree).2 := rfl
    rw [hreports, List.filterMap_cons]
    cases he : ((step.toStep project).reportOn (step.run project tree).1).edited? with
    | none =>
      rw [he, Option.toList_none, List.append_nil] at hrest
      exact hrest
    | some target =>
      rw [he, Option.toList_some, List.append_assoc] at hrest
      exact hrest

end Tree

namespace Report

open Codemod.Tree

variable {σ : Type} {project : Project}

/-- Runs chains one after another over one staging area. -/
def runAll (sink : Sink σ) : List (RunStamp × List Step) → Tree → σ → List Report × Tree × σ
  | [], tree, state => ([], tree, state)
  | (stamp, steps) :: rest, tree, state =>
    let (report, tree, state) := ofRun sink stamp steps tree state
    let (reports, tree, state) := runAll sink rest tree state
    (report :: reports, tree, state)

/-- A run of patch steps, stopped or not, keeps every file recoverable. -/
theorem recoverable_ofRun (sink : Sink σ) (stamp : RunStamp) (steps : List PatchStep)
    {targets : List Path} {tree : Tree} (h : tree.Recoverable project targets) (state : σ) :
    let result := ofRun sink stamp (steps.map (PatchStep.toStep project)) tree state
    result.2.1.Recoverable project (targets ++ result.1.edited) := by
  obtain ⟨ran, rest, hs, haccounts⟩ :=
    accounts_ofRun sink stamp (steps.map (PatchStep.toStep project)) tree state
  obtain ⟨first, last, rfl, rfl, rfl⟩ := List.map_eq_append_iff.1 hs
  intro result
  rw [edited, haccounts.steps, haccounts.staged]
  exact h.steps first

theorem recoverable_runAll (sink : Sink σ) (runs : List (RunStamp × List PatchStep))
    {targets : List Path} {tree : Tree} (h : tree.Recoverable project targets) (state : σ) :
    let result := runAll sink
      (runs.map fun run => (run.1, run.2.map (PatchStep.toStep project))) tree state
    result.2.1.Recoverable project (targets ++ result.1.flatMap edited) := by
  induction runs generalizing targets tree state with
  | nil => simpa [runAll] using h
  | cons run rest ih =>
    have hfirst := recoverable_ofRun sink run.1 run.2 h state
    simpa [runAll] using ih hfirst _

/-- After any number of runs of patch steps over one staging area, the text that was found for a
staged file is got back by undoing its edits, which took nothing away; there is one edit for each
step that was applied to the file, and none in a file that no step was applied to. -/
theorem recovers_of_runAll (sink : Sink σ) (project : Project)
    (runs : List (RunStamp × List PatchStep)) (state : σ) {result : List Report × Tree × σ}
    (hr : result = runAll sink
      (runs.map fun run => (run.1, run.2.map (PatchStep.toStep project))) Tree.empty state)
    {path : Path} {file : StagedFile} (h : result.2.1.files.find? path = some file) :
    Recovers project (result.1.flatMap edited) path file := by
  have hempty : Tree.empty.Recoverable project [] := recoverable_empty
  have hall := recoverable_runAll sink runs hempty state
  rw [← hr] at hall
  exact hall.recovers path file h

def argumentSteps : List PatchStep :=
  ["b", "c"].map fun token =>
    ⟨token, .abort, .file (some ⟨"main.ts"⟩), .fixed (.register "f" none token), none⟩

def argumentRuns : List (RunStamp × List PatchStep) :=
  List.replicate 2 (⟨⟨List.finRange 16 ++ List.finRange 16, rfl⟩, ⟨0, 0⟩, ⟨0, 0⟩⟩, argumentSteps)

def threeArguments : SourceFile :=
  SourceFile.callFile "f(a, b, c);\n"
    [.ofGrammar "identifier" 2 3 [], .ofGrammar "," 3 4 [], .ofGrammar "identifier" 5 6 [],
      .ofGrammar "," 6 7 [], .ofGrammar "identifier" 8 9 []]

/-- The project with the call of one argument, and a reader that knows the call with two and three
as well. -/
def argumentProject : Project where
  view := RecipeStep.callProject.view
  reader := SourceFile.readerOf [.oneArgument, .twoArguments, threeArguments]

def argumentResult : List Report × Tree × Unit :=
  runAll (fun state _ => state)
    (argumentRuns.map fun run => (run.1, run.2.map (PatchStep.toStep argumentProject))) Tree.empty ()

theorem recovers_argumentResult :
    argumentResult.1.map (fun report => report.edited.map Path.spelling) =
      [["main.ts", "main.ts"], []] ∧
    ∃ file, argumentResult.2.1.files.find? ⟨"main.ts"⟩ = some file ∧
      file.text = threeArguments.text ∧ file.history.map EditRecord.offset = [3, 6] ∧
      Recovers argumentProject (argumentResult.1.flatMap edited) ⟨"main.ts"⟩ file := by
  have h : (argumentResult.2.1.files.find? ⟨"main.ts"⟩).map
      (fun file => (file.text, file.history.map EditRecord.offset)) =
        some (threeArguments.text, [3, 6]) := by
    decide +kernel
  obtain ⟨file, hf, he⟩ := Option.map_eq_some_iff.1 h
  simp only [Prod.mk.injEq] at he
  exact ⟨by decide +kernel, file, hf, he.1, he.2, recovers_of_runAll _ _ _ _ rfl hf⟩

end Report

end Codemod
