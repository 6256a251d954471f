import Codemod.Proofs.Patches
import Codemod.Proofs.Recovery
import Codemod.Proofs.Relapses
import Codemod.Setup.Writing
import Mathlib.Algebra.GroupWithZero.Nat

/-!
What a setup comes to, told in several ways.

The report, the patch and the staged texts of a setup are taken from one staging area, one after
another, and the texts are written later. They list the same files in the same order. The report
counts the bytes of each file before and after, and the edits of the file account for the
difference. Writing sends the staged texts in that order, up to the first that is refused.
-/
namespace Codemod

namespace EditRecord

def removedBytes (records : List EditRecord) : Nat := (records.map EditRecord.removed).sum

def insertedBytes (records : List EditRecord) : Nat :=
  (records.map fun record => Text.size record.inserted).sum

theorem size_replay? {record : EditRecord} {text next : String}
    (h : record.replay? text = some next) :
    Text.size next + record.removed = Text.size text + Text.size record.inserted := by
  obtain ⟨a, b, c, hs, -, hb, rfl⟩ := Text.replaceAt?_eq_some_iff.1 h
  simp only [Text.size, hs, String.toList_ofList, Text.byteLength_append]
  omega

/-- What came and what went accounts for the size of a text. -/
theorem size_replayAll? {records : List EditRecord} {text last : String}
    (h : replayAll? records text = some last) :
    Text.size last + removedBytes records = Text.size text + insertedBytes records := by
  induction records generalizing text with
  | nil =>
    obtain rfl := Option.some.inj h
    rfl
  | cons record rest ih =>
    rw [← List.singleton_append, replayAll?_append, replayAll?_singleton] at h
    obtain ⟨next, hnext, hrest⟩ := Option.bind_eq_some_iff.1 h
    have hfirst := size_replay? hnext
    have hlater := ih hrest
    simp only [removedBytes, insertedBytes, List.map_cons, List.sum_cons] at hlater ⊢
    omega

end EditRecord

namespace RecipeStep

open Codemod.Tree

variable {project : Project}

theorem moves_resolve (project : Project) (tree : Tree) (target : TargetFile) :
    Moves project tree (target.resolve project tree).2 := by
  obtain he | ⟨main, he⟩ := target.resolve_tree project tree
  · rw [he]
    exact .refl tree
  · rw [he]
    exact load_moves project tree main

theorem moves_patch (step : PatchStep) (target : Path) (change : Change) (tree : Tree) :
    Moves project tree (step.patch project target change tree).2 := by
  have hload := load_moves project tree target
  rw [← source_tree] at hload
  unfold PatchStep.patch
  cases hs : tree.source project target with
  | mk answer mid =>
    rw [hs] at hload
    cases answer with
    | error error => exact hload
    | ok source =>
      simp only
      cases step.planFor target source change with
      | error error => exact hload
      | ok plan =>
        have happly := apply_moves project mid plan
        simp only
        split <;> simp_all only <;> exact hload.trans happly

theorem moves_declaration (step : ManifestStep) (tree : Tree) :
    Moves project tree (step.run project tree).2 := by
  have hways := step.runsTo_run project tree
  generalize step.run project tree = result at hways
  cases hways with
  | unnamed => exact .refl tree
  | refused | unchanged => exact load_moves project tree _
  | staged _ hf _ _ ha =>
    exact (load_moves project tree _).trans (moves_edited hf (Splice.replay?_between ..) ha)

/-- A step loads files and commits edits, and does nothing else to the staging area. -/
theorem moves_run (step : RecipeStep) (tree : Tree) :
    Moves project tree ((step.toStep project).run tree).2 := by
  cases step with
  | patch step =>
    change Moves project tree (step.run project tree).2
    have hresolve := moves_resolve project tree step.target
    have hways := step.runsTo_run project tree
    generalize step.run project tree = result at hways
    cases hways with
    | unfound | unchosen => exact hresolve
    | patched => exact hresolve.trans (moves_patch step _ _ _)
  | declare step => exact moves_declaration step tree

/-- So do several steps. -/
theorem moves_treeAfter (steps : List RecipeStep) (tree : Tree) :
    Moves project tree (Step.treeAfter (steps.map (toStep project)) tree) := by
  induction steps generalizing tree with
  | nil => exact .refl tree
  | cons step rest ih => exact (moves_run step tree).trans (ih _)

end RecipeStep

namespace Writer

variable {σ : Type} {writer : Writer σ} {root : Path}

/-- Texts are written under a root, one after another and nothing else. -/
inductive Sends (writer : Writer σ) (root : Path) : List (Path × String) → σ → σ → Prop
  | nil (state : σ) : Sends writer root [] state state
  | cons {path : Path} {text : String} {rest : List (Path × String)} {state mid last : σ} :
    writer.writeFile (root.join path) text state = (.ok (), mid) →
    Sends writer root rest mid last → Sends writer root ((path, text) :: rest) state last

/-- What writing some texts comes to. -/
inductive Delivers (writer : Writer σ) (root : Path) (texts : List (Path × String)) (state : σ) :
    Except String Nat × σ → Prop
  /-- All were written, and they are counted. -/
  | complete {last : σ} : Sends writer root texts state last →
    Delivers writer root texts state (.ok texts.length, last)
  /-- A text was refused, and only those in front of it were written. -/
  | stopped {front rest : List (Path × String)} {path : Path} {text reason : String}
      {mid last : σ} : texts = front ++ (path, text) :: rest → Sends writer root front state mid →
    writer.writeFile (root.join path) text mid = (.error reason, last) →
    Delivers writer root texts state
      (.error ("write staged " ++ path.spelling ++ ": " ++ reason), last)

theorem delivers_writeAll (writer : Writer σ) (root : Path) (texts : List (Path × String))
    (count : Nat) (state : σ) :
    (∃ last, Sends writer root texts state last ∧
      writer.writeAll root texts count state = (.ok (count + texts.length), last)) ∨
    ∃ front path text rest reason mid last, texts = front ++ (path, text) :: rest ∧
      Sends writer root front state mid ∧
      writer.writeFile (root.join path) text mid = (.error reason, last) ∧
      writer.writeAll root texts count state =
        (.error ("write staged " ++ path.spelling ++ ": " ++ reason), last) := by
  induction texts generalizing count state with
  | nil => exact .inl ⟨state, .nil state, rfl⟩
  | cons entry rest ih =>
    obtain ⟨path, text⟩ := entry
    cases hw : writer.writeFile (root.join path) text state with
    | mk answer next =>
      cases answer with
      | error reason =>
        refine .inr ⟨[], path, text, rest, reason, state, next, rfl, .nil state, hw, ?_⟩
        simp only [writeAll, hw]
      | ok done =>
        have hstep : writer.writeAll root ((path, text) :: rest) count state =
            writer.writeAll root rest (count + 1) next := by simp only [writeAll, hw]
        rw [hstep]
        obtain ⟨last, hs, hr⟩ | ⟨front, p, t, back, reason, mid, last, rfl, hs, hf, hr⟩ :=
          ih (count + 1) next
        · refine .inl ⟨last, .cons hw hs, ?_⟩
          rw [hr, List.length_cons, Nat.add_right_comm]
          rfl
        · exact .inr ⟨(path, text) :: front, p, t, back, reason, mid, last, rfl, .cons hw hs, hf,
            hr⟩

/-- Writing the staged texts sends them in their order, up to the first that is refused. -/
theorem delivers_writeStaged (writer : Writer σ) (outcome : SetupOutcome) (root : Path)
    (state : σ) :
    Delivers writer root outcome.staged state (writer.writeStaged outcome root state) := by
  obtain ⟨last, hs, hr⟩ | ⟨front, path, text, rest, reason, mid, last, he, hs, hf, hr⟩ :=
    delivers_writeAll writer root outcome.staged 0 state
  · rw [writeStaged, hr, Nat.zero_add]
    exact .complete hs
  · rw [writeStaged, hr]
    exact .stopped he hs hf

end Writer

/-- What an entry of a report tells of a file in a staging area. -/
structure FileChange.Tells (project : Project) (tree : Tree) (change : FileChange)
    (file : StagedFile) : Prop where
  staged : tree.files.find? change.path = some file
  /-- The first text is the one found under a spelling of the path. -/
  found : ∃ spelled, spelled.same change.path = true ∧
    project.view.read spelled = .ok (some file.loaded)
  differs : file.text ≠ file.loaded
  digests : change.digestBefore = Digest.sha256Text file.loaded ∧
    change.digestAfter = Digest.sha256Text file.text
  sizes : change.sizeBefore = Text.size file.loaded ∧ change.sizeAfter = Text.size file.text
  edits : change.edits = file.history.length ∧ 1 ≤ change.edits
  /-- What the edits took and brought makes the one size of the other. -/
  balance : change.sizeAfter + EditRecord.removedBytes file.history =
    change.sizeBefore + EditRecord.insertedBytes file.history

/-- A changed file is told of by the entry that is made of it. -/
theorem FileChange.tells_ofStaged {project : Project} {tree : Tree}
    (hm : Tree.Moves project .empty tree) {path : Path} {file : StagedFile}
    (hmem : (path, file) ∈ tree.changed) :
    (FileChange.ofStaged path file).Tells project tree file := by
  obtain ⟨hentry, hchanged⟩ := List.mem_filter.1 hmem
  have hordered : tree.files.Ordered :=
    hm.keeps (P := fun tree => tree.files.Ordered) Tree.ordered_move PathMap.ordered_empty
  have hfind := hordered.find?_of_mem hentry
  have hlog := hm.keeps (P := Tree.Logged) Tree.logged_move Tree.logged_empty path file hfind
  have hne : file.text ≠ file.loaded := by
    have h : file.loaded ≠ file.text := by simpa [StagedFile.isChanged] using hchanged
    exact h.symm
  refine ⟨hfind, ?_, hne, ⟨rfl, rfl⟩, ⟨rfl, rfl⟩, ⟨rfl, ?_⟩, EditRecord.size_replayAll? hlog⟩
  · obtain ⟨old, hold, -⟩ | ⟨-, key, hs, hr⟩ := Tree.loaded_moves hm hfind
    · simp [Tree.empty] at hold
    · exact ⟨key, hs, hr⟩
  · have hsome : file.history ≠ [] := by
      intro hnil
      rw [hnil] at hlog
      exact hne (Option.some.inj hlog).symm
    exact List.length_pos_iff.2 hsome

namespace SetupOutcome

variable {σ : Type}

def lastTree (sink : Sink σ) (stamp : RunStamp) (project : Project) (settings : SetupSettings)
    (state : σ) : Tree :=
  (Report.ofRun sink stamp ((recipe settings).map (RecipeStep.toStep project)) .empty state).2.1

theorem moves_lastTree (sink : Sink σ) (stamp : RunStamp) (project : Project)
    (settings : SetupSettings) (state : σ) :
    Tree.Moves project .empty (lastTree sink stamp project settings state) := by
  obtain ⟨ran, rest, hs, haccounts⟩ := Report.accounts_ofRun sink stamp
    ((recipe settings).map (RecipeStep.toStep project)) .empty state
  obtain ⟨first, last, -, rfl, -⟩ := List.map_eq_append_iff.1 hs
  rw [lastTree, haccounts.staged]
  exact RecipeStep.moves_treeAfter first .empty

/-- An outcome whose parts are about the same changes of a staging area. -/
structure Agrees (project : Project) (tree : Tree) (outcome : SetupOutcome) : Prop where
  /-- The report lists the files of the staged texts. -/
  listed : outcome.report.files.map FileChange.path = outcome.staged.map Prod.fst
  /-- The patch has a section for each of them. -/
  sections : ∃ files, Diff.readPatch outcome.patch = some files ∧
    files.map Diff.FilePatch.heading = outcome.staged.map fun entry =>
      ("diff --git a/" ++ entry.1.spelling ++ " b/" ++ entry.1.spelling ++ "\n").toList
  /-- They stand in the order of their paths, each once. -/
  ordered : (outcome.staged.map Prod.fst).Pairwise fun p q => p.compare q = .lt
  /-- An entry of the report tells of the file whose text is staged. -/
  told : ∀ change ∈ outcome.report.files, ∃ file, change.Tells project tree file ∧
    (change.path, file.text) ∈ outcome.staged
  /-- Writing sends the staged texts in this order, up to the first that is refused. -/
  delivered : ∀ {τ : Type} (writer : Writer τ) (root : Path) (state : τ),
    writer.Delivers root outcome.staged state (writer.writeStaged outcome root state)

/-- The report, the patch, the staged texts and what is written of them agree, where no file has a
line break in its name. -/
theorem agrees_ofRun (sink : Sink σ) (stamp : RunStamp) (tool : ToolInfo) (project : Project)
    (settings : SetupSettings) (state : σ) {outcome : SetupOutcome}
    (ho : outcome = (ofRun sink stamp tool project settings state).1)
    (hn : ∀ entry ∈ outcome.staged, '\n' ∉ entry.1.spelling.toList) :
    Agrees project (lastTree sink stamp project settings state) outcome := by
  have hmoves := moves_lastTree sink stamp project settings state
  have hfiles : outcome.report.files = (lastTree sink stamp project settings state).changes := by
    rw [ho]
    rfl
  have hstaged : outcome.staged = (lastTree sink stamp project settings state).staged := by
    rw [ho]
    rfl
  have hpatch : outcome.patch = (lastTree sink stamp project settings state).patch := by
    rw [ho]
    rfl
  have hkeys : outcome.staged.map Prod.fst =
      (lastTree sink stamp project settings state).changed.map Prod.fst := by
    rw [hstaged, Tree.staged, List.map_map]
    rfl
  refine ⟨?_, ?_, ?_, ?_, fun writer root state => writer.delivers_writeStaged outcome root state⟩
  · rw [hfiles, hkeys, Tree.changes, List.map_map]
    rfl
  · have hclean : ∀ entry ∈ (lastTree sink stamp project settings state).changed,
        '\n' ∉ entry.1.spelling.toList := by
      intro entry hentry
      apply hn (entry.1, entry.2.text)
      rw [hstaged]
      exact List.mem_map_of_mem hentry
    refine ⟨_, hpatch ▸ Tree.readPatch_patch hclean, ?_⟩
    rw [hstaged, Tree.staged, List.map_map, List.map_map]
    rfl
  · rw [hkeys, List.pairwise_map]
    have hordered : (lastTree sink stamp project settings state).files.Ordered :=
      hmoves.keeps (P := fun tree => tree.files.Ordered) Tree.ordered_move PathMap.ordered_empty
    exact List.Pairwise.filter _ hordered
  · intro change hchange
    rw [hfiles] at hchange
    obtain ⟨⟨path, file⟩, hmem, rfl⟩ := List.mem_map.1 hchange
    refine ⟨file, FileChange.tells_ofStaged hmoves hmem, ?_⟩
    rw [hstaged]
    exact List.mem_map_of_mem hmem

/-- The outcome for a project with an entry file and a manifest agrees with itself. -/
theorem agrees_bareProject :
    (runOn bareProject).staged.map (fun entry => entry.1.spelling) = ["main.ts", "package.json"] ∧
    Agrees (.ofTexts SingleImport.reader bareProject)
      (lastTree (fun n _ => n) firstStamp (.ofTexts SingleImport.reader bareProject)
        bareSettings ())
      (runOn bareProject) := by
  have hnames : (runOn bareProject).staged.map (fun entry => entry.1.spelling) =
      ["main.ts", "package.json"] := by decide +kernel
  refine ⟨hnames, agrees_ofRun (fun n _ => n) firstStamp ⟨"graft", none⟩ _ bareSettings () rfl ?_⟩
  intro entry hentry
  have hname : entry.1.spelling ∈ ["main.ts", "package.json"] :=
    hnames ▸ List.mem_map_of_mem hentry
  simp only [List.mem_cons, List.not_mem_nil, or_false] at hname
  rcases hname with hname | hname <;> rw [hname] <;> decide

end SetupOutcome

end Codemod
