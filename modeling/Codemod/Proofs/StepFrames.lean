import Codemod.Proofs.AppliedOnce
import Codemod.Proofs.Atomicity

/-!
What a step changes, and what it says about it.

A step loads the files that it asks, and then edits one file or none. `Tree.Keeps` is what loading
leaves of a path, and `Tree.Edits` is an edit of one file with everything else kept. A step that
answers that it was applied has edited the file it names, with one record more in its history; any
other answer, a failure among them, comes with a staging area that has been loaded into at most.
-/
namespace Codemod

namespace Tree

variable {project : Project}

/-- The file that a path stands for: the staged one, or one without edits that has the text found
under a spelling of the path. -/
inductive Finds (project : Project) (tree : Tree) (path : Path) : StagedFile → Prop
  | staged {file : StagedFile} : tree.files.find? path = some file → Finds project tree path file
  | found {spelled : Path} {text : String} {source : Option SourceFile} :
    tree.files.find? path = none → spelled.same path = true →
    project.view.read spelled = .ok (some text) →
    analyze project.reader spelled text = .ok source →
    Finds project tree path (fileOf text source)

/-- A path that was not edited: a file that was staged is as it was, and one that is staged now is
the file that the path stood for. -/
structure Keeps (project : Project) (tree tree' : Tree) (path : Path) : Prop where
  kept : ∀ file, tree.files.find? path = some file → tree'.files.find? path = some file
  found : ∀ file, tree'.files.find? path = some file → Finds project tree path file

/-- An edit of one file: its text is another one, and its history has one record more, which leads
from the old text to the new one. -/
structure Edits (project : Project) (target : Path) (tree tree' : Tree) : Prop where
  edited : ∃ before after record, Finds project tree target before ∧
    tree'.files.find? target = some after ∧ after.text ≠ before.text ∧
    after.loaded = before.loaded ∧ after.history = before.history ++ [record] ∧
    record.replay? before.text = some after.text
  others : ∀ path, target.same path = false → Keeps project tree tree' path

theorem Keeps.refl (tree : Tree) (path : Path) : Keeps project tree tree path :=
  ⟨fun _ h => h, fun _ h => .staged h⟩

/-- What was found for a path after loading others was found for it before. -/
theorem Keeps.finds {tree mid : Tree} {path : Path} {file : StagedFile}
    (h : Keeps project tree mid path) (hf : Finds project mid path file) :
    Finds project tree path file := by
  cases hf with
  | staged hm => exact h.found file hm
  | found hn hs hr ha =>
    refine .found ?_ hs hr ha
    cases hfile : tree.files.find? path with
    | none => rfl
    | some old =>
      rw [h.kept old hfile] at hn
      cases hn

theorem Keeps.trans {tree mid last : Tree} {path : Path} (h : Keeps project tree mid path)
    (h' : Keeps project mid last path) : Keeps project tree last path :=
  ⟨fun file hf => h'.kept file (h.kept file hf), fun file hf => h.finds (h'.found file hf)⟩

theorem Edits.of_keeps {tree mid last : Tree} {target : Path}
    (h : ∀ path, Keeps project tree mid path) (he : Edits project target mid last) :
    Edits project target tree last := by
  obtain ⟨before, after, record, hbefore, hafter⟩ := he.edited
  exact ⟨⟨before, after, record, (h target).finds hbefore, hafter⟩,
    fun path hp => (h path).trans (he.others path hp)⟩

/-- Loading edits nothing. -/
theorem keeps_load (project : Project) (tree : Tree) (path q : Path) :
    Keeps project tree (tree.load project path).2 q := by
  obtain ⟨file, _, h⟩ | ⟨_, error, h⟩ | ⟨text, source, hn, hr, ha, h⟩ :=
    load_cases project tree path
  · rw [h]
    exact .refl tree q
  · rw [h]
    exact .refl tree q
  · rw [h]
    constructor
    · exact fun file hf => (h ▸ untouched_load project tree path).kept q file hf
    · intro file hf
      rw [PathMap.find?_insert] at hf
      split at hf
      · rename_i hs
        obtain rfl := Option.some.inj hf
        exact .found (by rw [← PathMap.find?_congr hs, hn]) hs hr ha
      · exact .staged hf

/-- A staged file that is given another text by one record is edited. -/
theorem edits_insert {tree : Tree} {target path : Path} {file : StagedFile}
    (hs : path.same target = true) (hf : tree.files.find? path = some file) {text : String}
    (ht : text ≠ file.text) {record : EditRecord} (hr : record.replay? file.text = some text)
    (source : Option SourceFile) :
    Edits project target tree ⟨tree.files.insert path (edited file text source [record])⟩ := by
  have hbefore : tree.files.find? target = some file := by rw [← PathMap.find?_congr hs, hf]
  refine ⟨⟨file, edited file text source [record], record, .staged hbefore, ?_, ht, rfl, rfl, hr⟩,
    ?_⟩
  · rw [PathMap.find?_insert, if_pos hs]
  · intro q hq
    have hother : path.same q ≠ true := by
      intro h
      rw [Path.same_trans (Path.same_symm hs) h] at hq
      cases hq
    constructor
    · intro old ho
      rw [PathMap.find?_insert, if_neg hother, ho]
    · intro old ho
      rw [PathMap.find?_insert, if_neg hother] at ho
      exact .staged ho

/-- What a step answers is what became of the staged files. -/
def Truthful (project : Project) (tree : Tree) : Except StepError StepOutput × Tree → Prop
  | (.ok output, tree') =>
    if output.applied then Edits project output.target tree tree'
    else ∀ path, Keeps project tree tree' path
  | (.error _, tree') => ∀ path, Keeps project tree tree' path

/-- What was loaded on the way makes no difference. -/
theorem Truthful.of_keeps {tree mid : Tree} {result : Except StepError StepOutput × Tree}
    (h : ∀ path, Keeps project tree mid path) (hr : Truthful project mid result) :
    Truthful project tree result := by
  obtain ⟨answer, last⟩ := result
  cases answer with
  | error error => exact fun path => (h path).trans (hr path)
  | ok output =>
    simp only [Truthful] at hr ⊢
    split
    · rename_i ha
      rw [if_pos ha] at hr
      exact hr.of_keeps h
    · rename_i ha
      rw [if_neg ha] at hr
      exact fun path => (h path).trans (hr path)

theorem truthful_error (tree : Tree) (error : StepError) :
    Truthful project tree (.error error, tree) := fun path => .refl tree path

theorem truthful_unapplied (tree : Tree) (target : Path) (detail : String) :
    Truthful project tree (.ok ⟨target, false, detail⟩, tree) := fun path => .refl tree path

end Tree

/-- A change that puts a text into a file: an element to register is not empty. -/
def Change.HasToken : Change → Prop
  | register _ _ token => token ≠ ""
  | _ => True

theorem Text.insertAt?_ne {s t piece : String} {offset : Nat} (hp : piece ≠ "")
    (h : insertAt? s offset piece = some t) : t ≠ s := by
  obtain ⟨a, b, hs, -, rfl⟩ := insertAt?_eq_some_iff.1 h
  intro he
  have hlength := congrArg (fun text : String => text.toList.length) he
  simp only [String.toList_ofList, List.length_append, hs] at hlength
  have hnil : piece.toList = [] := List.eq_nil_of_length_eq_zero (by omega)
  exact hp (String.toList_inj.1 (by simpa using hnil))

namespace SourceFile

variable {file : SourceFile} {change : Change}

theorem elementInsertion_ne_empty {anchor : Anchor} {element piece : String} (he : element ≠ "")
    (h : file.elementInsertion anchor element = .ok piece) : piece ≠ "" := by
  unfold elementInsertion at h
  split at h
  · obtain rfl := Except.ok.inj h
    intro hempty
    have hlist := congrArg String.toList hempty
    simp only [elementText, String.toList_ofList, String.toList_empty] at hlist
    have hnil : element.toList = [] := (List.append_eq_nil_iff.1 hlist).2
    exact he (String.toList_inj.1 (by simpa using hnil))
  · cases h

/-- The text that a change puts into a file is not empty. -/
theorem insertionText_ne_empty (ht : change.HasToken) {anchor : Anchor} {piece : String}
    (h : file.insertionText anchor change = .ok piece) : piece ≠ "" := by
  have hlead : ∀ {lead rest : String}, lead ≠ "" → lead ++ rest ≠ "" := by
    intro lead rest hl he
    exact hl (String.append_eq_empty_iff.1 he).1
  cases change with
  | appendField declarator key entries =>
    simp only [insertionText] at h
    split at h
    · obtain rfl := Except.ok.inj h
      exact hlead (by split <;> decide)
    · cases h
  | insertImport identifier module =>
    simp only [insertionText] at h
    split at h
    · obtain rfl := Except.ok.inj h
      exact hlead (by split <;> decide)
    · obtain rfl := Except.ok.inj h
      exact hlead (by decide)
    · obtain rfl := Except.ok.inj h
      intro he
      exact absurd (String.append_eq_empty_iff.1 he).2 (by decide)
    · cases h
  | register callee property token =>
    simp only [insertionText] at h
    split at h
    · exact elementInsertion_ne_empty ht h
    · exact elementInsertion_ne_empty ht h
    · refine elementInsertion_ne_empty ?_ h
      intro he
      exact absurd (String.append_eq_empty_iff.1 he).2 (by decide)
    · cases h

end SourceFile

section steps

open Codemod.Tree

variable {project : Project} {tree : Tree}

/-- Finding the file of a step loads one file at most. -/
theorem TargetFile.resolve_tree (project : Project) (tree : Tree) (target : TargetFile) :
    (target.resolve project tree).2 = tree ∨
      ∃ main, (target.resolve project tree).2 = (tree.load project main).2 := by
  cases target with
  | file given => cases given <;> exact .inl rfl
  | rootModuleOf main =>
    refine .inr ⟨main, ?_⟩
    rw [← source_tree]
    simp only [resolve]
    split <;> simp [*]

namespace PatchStep

def HasToken (step : PatchStep) : Prop :=
  match step.change with
  | .fixed change => change.HasToken
  | .importFrom .. => True

theorem hasToken_of_resolve {step : PatchStep} (h : step.HasToken) {target : Path}
    {change : Change} (hc : step.change.resolve project tree target = .ok change) :
    change.HasToken := by
  unfold HasToken at h
  cases hs : step.change with
  | fixed given =>
    rw [hs] at h hc
    obtain rfl := Except.ok.inj hc
    exact h
  | importFrom identifier file =>
    rw [hs] at hc
    cases file with
    | none => cases hc
    | some file =>
      simp only [ChangeSpec.resolve] at hc
      split at hc
      · obtain rfl := Except.ok.inj hc
        trivial
      · cases hc

theorem truthful_patch (h : tree.Fresh project.reader) (step : PatchStep) (target : Path)
    {change : Change} (ht : change.HasToken) :
    Truthful project tree (step.patch project target change tree) := by
  have hkeeps := keeps_load project tree target
  have hways := patchesTo_patch h step target change
  generalize step.patch project target change tree = result at hways
  cases hways with
  | refused error => exact (truthful_error _ error).of_keeps hkeeps
  | present => exact (truthful_unapplied _ target _).of_keeps hkeeps
  | @inserted file source offset piece rationale text found hf _ hs _ hp hi _ =>
    obtain ⟨-, -, anchor, -, -, hpiece⟩ := SourceFile.plan_eq_insert hp
    have hfile := (PathMap.find?_congr hs _).trans hf
    have hne := Text.insertAt?_ne (SourceFile.insertionText_ne_empty ht hpiece) hi
    have hreplay : EditRecord.replay? ⟨offset, 0, piece, rationale⟩ file.text = some text := by
      rw [EditRecord.replay?, Text.replaceAt?_zero, hi]
    exact (edits_insert hs hfile hne hreplay found).of_keeps hkeeps

theorem truthful_of_fresh (h : tree.Fresh project.reader) {step : PatchStep} (ht : step.HasToken) :
    Truthful project tree (step.run project tree) := by
  have hmid : (step.target.resolve project tree).2.Fresh project.reader ∧
      ∀ path, Keeps project tree (step.target.resolve project tree).2 path := by
    obtain he | ⟨main, he⟩ := step.target.resolve_tree project tree
    · rw [he]
      exact ⟨h, .refl tree⟩
    · rw [he]
      exact ⟨fresh_load h main, keeps_load project tree main⟩
  obtain ⟨hfresh, hkeeps⟩ := hmid
  have hways := runsTo_run project step tree
  generalize step.run project tree = result at hways
  cases hways with
  | unfound | unchosen => exact (truthful_error _ _).of_keeps hkeeps
  | patched _ hc => exact (truthful_patch hfresh step _ (hasToken_of_resolve ht hc)).of_keeps hkeeps

end PatchStep

namespace ManifestStep

theorem truthful_declaration (step : ManifestStep) :
    Truthful project tree (step.run project tree) := by
  have hways := runsTo_run project step tree
  generalize step.run project tree = result at hways
  cases hways with
  | unnamed => exact truthful_error tree _
  | refused error => exact (truthful_error _ error).of_keeps (keeps_load project tree _)
  | unchanged detail => exact (truthful_unapplied _ _ detail).of_keeps (keeps_load project tree _)
  | @staged path file text detail source _ hf _ ht _ =>
    have hreplay := Splice.replay?_between file.text text detail
    exact (edits_insert (Path.same_refl path) hf ht hreplay source).of_keeps
      (keeps_load project tree path)

end ManifestStep

end steps

namespace RecipeStep

def HasToken : RecipeStep → Prop
  | declare _ => True
  | patch step => step.HasToken

/-- In every state that a session reaches, a step tells what it has done to the staged files,
whatever is found while it runs. -/
theorem truthful_run (reader : TreeReader) (actions : List Session.Action) (view : View)
    (step : RecipeStep) (h : step.HasToken) :
    (Session.start.run reader actions).tree.Truthful ⟨view, reader⟩
      ((step.toStep ⟨view, reader⟩).run (Session.start.run reader actions).tree) := by
  have hfresh : (Session.start.run reader actions).tree.Fresh reader :=
    Session.run_keeps (P := Tree.Fresh reader) Tree.fresh_move Session.sound_start
      Tree.fresh_empty actions
  cases step with
  | declare step => exact step.truthful_declaration
  | patch step => exact PatchStep.truthful_of_fresh hfresh h

/-- A project with a call of one argument, and a reader that knows the call with two as well. -/
def callProject : Project where
  view := .ofTexts (PathMap.empty.insert ⟨"main.ts"⟩ SourceFile.oneArgument.text)
  reader := SourceFile.readerOf [.oneArgument, .twoArguments]

def callAsked : List Session.Action := [⟨callProject.view, .text ⟨"main.ts"⟩⟩]

def callStep : RecipeStep :=
  .patch ⟨"call", .abort, .file (some ⟨"main.ts"⟩), .fixed (.register "f" none "b"), none⟩

theorem truthful_run_callStep : callStep.HasToken ∧ ∃ output tree',
    (callStep.toStep callProject).run (Session.start.run callProject.reader callAsked).tree =
      (.ok output, tree') ∧
    output.target.spelling = "main.ts" ∧ output.applied = true ∧
    tree'.staged.map (fun entry => entry.2) = [SourceFile.twoArguments.text] ∧
    Tree.Edits callProject output.target (Session.start.run callProject.reader callAsked).tree
      tree' := by
  have htoken : callStep.HasToken := show "b" ≠ "" by decide
  have htruth := truthful_run callProject.reader callAsked callProject.view callStep htoken
  have hanswer : (((callStep.toStep callProject).run
      (Session.start.run callProject.reader callAsked).tree).1.toOption.map fun output =>
        (output.target.spelling, output.applied)) = some ("main.ts", true) := by decide +kernel
  have hstaged : ((callStep.toStep callProject).run
      (Session.start.run callProject.reader callAsked).tree).2.staged.map
        (fun entry => entry.2) = [SourceFile.twoArguments.text] := by decide +kernel
  change Tree.Truthful callProject _ ((callStep.toStep callProject).run _) at htruth
  generalize (callStep.toStep callProject).run
    (Session.start.run callProject.reader callAsked).tree = result at *
  obtain ⟨answer, tree'⟩ := result
  cases answer with
  | error error => cases hanswer
  | ok output =>
    simp only [Except.toOption, Option.map_some, Option.some.injEq, Prod.mk.injEq] at hanswer
    simp only [Tree.Truthful, hanswer.2, if_true] at htruth
    exact ⟨htoken, output, tree', rfl, hanswer.1, hanswer.2, hstaged, htruth⟩

end RecipeStep

end Codemod
