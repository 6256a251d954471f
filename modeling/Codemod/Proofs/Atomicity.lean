import Codemod.Staging.Summary
import Codemod.Proofs.StagingRun

/-!
Failures leave no trace.

A path that cannot be loaded leaves the staging area as it was. A plan that fails, a buffer that is
given up and a commit that is refused leave every staged file as it was; at most the file they were
about is staged now, with the text that was found and no edits. The changed files, their summary
and the patch are then the same as before.
-/
namespace Codemod

namespace Tree

/-- What an operation on a file leaves behind that changes nothing. -/
structure Untouched (project : Project) (target : Path) (tree tree' : Tree) : Prop where
  /-- Every staged file is as it was. -/
  kept : ∀ path file, tree.files.find? path = some file → tree'.files.find? path = some file
  /-- A file that was not staged before is the one of the operation, with the text found for it. -/
  added : ∀ path file, tree'.files.find? path = some file → tree.files.find? path = some file ∨
    (tree.files.find? path = none ∧ target.same path = true ∧ file.text = file.loaded ∧
      file.history = [] ∧ project.view.read target = .ok (some file.text))
  staged : tree'.staged = tree.staged
  changes : tree'.changes = tree.changes
  patch : tree'.patch = tree.patch

variable {project : Project}

theorem Untouched.refl (target : Path) (tree : Tree) : Untouched project target tree tree :=
  ⟨fun _ _ h => h, fun _ _ h => .inl h, rfl, rfl, rfl⟩

/-- A new file without edits is not among the changed ones. -/
theorem changed_insert {tree : Tree} {path : Path} (h : tree.files.find? path = none)
    (text : String) (source : Option SourceFile) :
    changed ⟨tree.files.insert path (fileOf text source)⟩ = tree.changed := by
  obtain ⟨front, back, he, hi⟩ := PathMap.insertEntry_of_none h (fileOf text source)
  have hf : (fileOf text source).isChanged = false := by simp [fileOf, StagedFile.isChanged]
  simp only [changed, PathMap.insert]
  rw [hi, he]
  simp [hf]

/-- Loading a path, successful or not, changes nothing. -/
theorem untouched_load (project : Project) (tree : Tree) (path : Path) :
    Untouched project path tree (tree.load project path).2 := by
  obtain ⟨file, _, h⟩ | ⟨_, error, h⟩ | ⟨text, source, hn, hr, ha, h⟩ :=
    load_cases project tree path
  · rw [h]
    exact .refl path tree
  · rw [h]
    exact .refl path tree
  · rw [h]
    have hchanged := changed_insert hn text source
    refine ⟨?_, ?_, ?_, ?_, ?_⟩
    · intro q file hq
      rw [PathMap.find?_insert]
      split
      · rename_i hs
        rw [PathMap.find?_congr hs, hq] at hn
        cases hn
      · exact hq
    · intro q file hq
      rw [PathMap.find?_insert] at hq
      split at hq
      · rename_i hs
        obtain rfl := Option.some.inj hq
        exact .inr ⟨by rw [← PathMap.find?_congr hs, hn], hs, rfl, rfl, hr⟩
      · exact .inl hq
    · simp only [staged, hchanged]
    · simp only [changes, hchanged]
    · simp only [patch, hchanged]

/-- A path that cannot be loaded leaves the staging area as it is. -/
theorem load_error {tree : Tree} {path : Path} {error : EditError}
    (h : (tree.load project path).1 = .error error) : (tree.load project path).2 = tree := by
  obtain ⟨_, _, hl⟩ | ⟨_, _, hl⟩ | ⟨_, _, _, _, _, hl⟩ := load_cases project tree path
  · rw [hl]
  · rw [hl]
  · simp [hl] at h

theorem edit_tree (project : Project) (tree : Tree) (path : Path) :
    (tree.edit project path).2 = (tree.load project path).2 := by
  obtain ⟨_, he⟩ | ⟨_, _, he⟩ := edit_cases project tree path <;> rw [he]

/-- A commit that fails leaves the staging area as it is. -/
theorem commit_error {tree : Tree} {buffer : Buffer} {error : EditError}
    (h : (tree.commit project buffer).1 = .error error) :
    (tree.commit project buffer).2 = tree := by
  obtain ⟨_, hc⟩ | ⟨_, _, _, hc⟩ | ⟨_, _, _, hc⟩ := commit_cases project tree buffer
  · simp [hc] at h
  · rw [hc]
  · simp [hc] at h

/-- The one reason for a commit to fail. -/
theorem commit_refused {tree : Tree} {buffer : Buffer} {error : EditError}
    (h : (tree.commit project buffer).1 = .error error) :
    ∃ reason, error = .wouldCorrupt buffer.path reason := by
  obtain ⟨_, hc⟩ | ⟨_, reason, _, hc⟩ | ⟨_, _, _, hc⟩ := commit_cases project tree buffer
  · simp [hc] at h
  · rw [hc] at h
    exact ⟨reason, (Except.error.inj h).symm⟩
  · simp [hc] at h

/-- A plan that fails has at most loaded its target. -/
theorem apply_error {tree : Tree} {plan : EditPlan} {error : EditError}
    (h : (tree.apply project plan).1 = .error error) :
    (tree.apply project plan).2 = (tree.load project plan.target).2 := by
  obtain ha | ⟨buffer, _, _, ha⟩ := apply_cases project tree plan
  · exact ha
  · rw [ha] at h ⊢
    exact commit_error h

end Tree

namespace Session

def opened (project : Project) (tree : Tree) (path : Path) (edits : List Command) : Session :=
  edits.foldl (step project) (step project ⟨tree, none⟩ (.edit path))

/-- Edits of an open buffer do not touch the staging area. -/
theorem foldl_step_tree (project : Project) {edits : List Command}
    (h : edits.all Command.isEdit = true) (session : Session) :
    (edits.foldl (step project) session).tree = session.tree := by
  induction edits generalizing session with
  | nil => rfl
  | cons command rest ih =>
    simp only [List.all_cons, Bool.and_eq_true] at h
    rw [List.foldl_cons, ih h.2]
    cases command <;> first | rfl | simp [Command.isEdit] at h

theorem opened_tree (project : Project) (tree : Tree) (path : Path) {edits : List Command}
    (h : edits.all Command.isEdit = true) :
    (opened project tree path edits).tree = (tree.load project path).2 := by
  rw [opened, foldl_step_tree project h]
  obtain ⟨error, he⟩ | ⟨file, _, he⟩ := Tree.edit_cases project tree path
  · simp [step, he]
  · simp [step, he]

end Session

/-- No failure of an operation on a staging area leaves a trace. -/
structure Tree.FailSafe (project : Project) (tree : Tree) : Prop where
  /-- A path that cannot be loaded leaves the staging area as it is, whatever it is loaded for. -/
  load : ∀ path error, (tree.load project path).1 = .error error →
    (tree.load project path).2 = tree ∧ (tree.text project path).2 = tree ∧
      (tree.source project path).2 = tree ∧ (tree.edit project path).2 = tree
  /-- A file without a tree to ask for is staged at most. -/
  source : ∀ path error, (tree.source project path).1 = .error error →
    Tree.Untouched project path tree (tree.source project path).2
  /-- So is the target of a plan that cannot be carried out. -/
  apply : ∀ plan error, (tree.apply project plan).1 = .error error →
    Tree.Untouched project plan.target tree (tree.apply project plan).2
  /-- So is the file of a buffer that is given up, whatever was done to it. -/
  drop : ∀ path edits, edits.all Session.Command.isEdit = true →
    Tree.Untouched project path tree
      ((Session.opened project tree path edits).step project .drop).tree
  /-- So is the file of a buffer whose commit is refused, and that is the one refusal. -/
  commit : ∀ path edits buffer error, edits.all Session.Command.isEdit = true →
    (Session.opened project tree path edits).buffer = some buffer →
    ((Session.opened project tree path edits).tree.commit project buffer).1 = .error error →
    (∃ reason, error = .wouldCorrupt buffer.path reason) ∧
      Tree.Untouched project path tree
        ((Session.opened project tree path edits).step project .commit).tree

/-- No failure leaves a trace, in any state of the staging area. -/
theorem Tree.failSafe (project : Project) (tree : Tree) : tree.FailSafe project := by
  refine ⟨?_, ?_, ?_, ?_, ?_⟩
  · intro path error h
    simp only [Tree.text_tree, Tree.source_tree, Tree.edit_tree]
    have hload := Tree.load_error h
    exact ⟨hload, hload, hload, hload⟩
  · intro path error _
    rw [Tree.source_tree]
    exact Tree.untouched_load ..
  · intro plan error h
    rw [Tree.apply_error h]
    exact Tree.untouched_load ..
  · intro path edits h
    change Tree.Untouched project path tree (Session.opened project tree path edits).tree
    rw [Session.opened_tree project tree path h]
    exact Tree.untouched_load ..
  · intro path edits buffer error h hb he
    refine ⟨Tree.commit_refused he, ?_⟩
    have hstep : ((Session.opened project tree path edits).step project .commit).tree =
        ((Session.opened project tree path edits).tree.commit project buffer).2 := by
      simp only [Session.step, hb]
    rw [hstep, Tree.commit_error he, Session.opened_tree project tree path h]
    exact Tree.untouched_load ..

end Codemod
