import Codemod.Proofs.Atomicity
import Codemod.Proofs.EditLog
import Codemod.Proofs.PathOrder

/-!
Work on different files.

What is asked of one file neither reads nor changes the staged form of another. `Tree.put` gives a
path its staged file. Every operation on a path goes past such a change under any other path: it
answers what it would answer without, and the change is still there behind it. An operation itself
comes to at most one such change, under its own path. So two requests about different files may
change places.
-/
namespace Codemod

/-- A buffer keeps its path. -/
theorem Buffer.path_of_insert {buffer next : Buffer} {offset : Nat} {piece rationale : String}
    (h : buffer.insert offset piece rationale = .ok next) : next.path = buffer.path := by
  have hpath := Session.insertInto_path offset piece rationale buffer
  rwa [Session.insertInto, h] at hpath

/-- A text to be put at an offset. -/
structure Insertion where
  offset : Nat
  piece : String
  rationale : String

/-- An edit of an open buffer. -/
inductive BufferEdit where
  | insert (insertion : Insertion)
  | replaceAll (text rationale : String)

namespace BufferEdit

/-- The text of a buffer after an edit, or why the edit fails, and the buffer then. -/
def run (buffer : Buffer) : BufferEdit → Except EditError String × Buffer
  | insert insertion =>
    match buffer.insert insertion.offset insertion.piece insertion.rationale with
    | .ok next => (.ok next.text, next)
    | .error error => (.error error, buffer)
  | replaceAll text rationale =>
    let next := buffer.replaceAll text rationale
    (.ok next.text, next)

/-- The same for several edits, each tried on what the ones before it left. -/
def runAll (buffer : Buffer) : List BufferEdit → List (Except EditError String) × Buffer
  | [] => ([], buffer)
  | edit :: rest =>
    let (answer, next) := edit.run buffer
    let (answers, last) := runAll next rest
    (answer :: answers, last)

theorem run_path (edit : BufferEdit) (buffer : Buffer) : (edit.run buffer).2.path = buffer.path := by
  cases edit with
  | insert insertion =>
    simp only [run]
    split
    · exact Buffer.path_of_insert ‹_›
    · rfl
  | replaceAll text rationale => exact Session.replaceAll_path text rationale buffer

@[simp] theorem runAll_path (edits : List BufferEdit) (buffer : Buffer) :
    (runAll buffer edits).2.path = buffer.path := by
  induction edits generalizing buffer with
  | nil => rfl
  | cons edit rest ih => exact (ih _).trans (run_path edit buffer)

end BufferEdit

namespace Tree

/-- A staging area where a path has a staged file of choice. -/
def put (tree : Tree) (path : Path) (file : StagedFile) : Tree := ⟨tree.files.insert path file⟩

def putBehind {α : Type} (path : Path) (file : StagedFile) (result : α × Tree) : α × Tree :=
  (result.1, result.2.put path file)

inductive Request where
  | text (path : Path)
  | source (path : Path)
  | apply (plan : EditPlan)
  /-- A buffer is opened, edited and committed. -/
  | record (path : Path) (edits : List BufferEdit)

inductive Answer where
  | text (answer : Except EditError String)
  | source (answer : Except EditError SourceFile)
  | applied (answer : Except EditError PatchResult)
  /-- What the edits and the commit are answered, if a buffer is opened at all. -/
  | recorded (answer :
      Except EditError (List (Except EditError String) × Except EditError PatchResult))

def Request.path : Request → Path
  | text path | source path | record path _ => path
  | apply plan => plan.target

def Request.run (project : Project) (tree : Tree) : Request → Answer × Tree
  | text path =>
    let (answer, tree) := tree.text project path
    (.text answer, tree)
  | source path =>
    let (answer, tree) := tree.source project path
    (.source answer, tree)
  | apply plan =>
    let (answer, tree) := tree.apply project plan
    (.applied answer, tree)
  | record path edits =>
    match tree.edit project path with
    | (.error error, tree) => (.recorded (.error error), tree)
    | (.ok buffer, tree) =>
      let (answers, buffer) := BufferEdit.runAll buffer edits
      let (result, tree) := tree.commit project buffer
      (.recorded (.ok (answers, result)), tree)

variable {project : Project} {tree : Tree} {path q : Path}

theorem put_put (tree : Tree) (path : Path) (old new : StagedFile) :
    (tree.put path old).put path new = tree.put path new :=
  congrArg Tree.mk (PathMap.insert_insert ..)

theorem put_comm (h : path.same q = false) (tree : Tree) (file other : StagedFile) :
    (tree.put q other).put path file = (tree.put path file).put q other :=
  congrArg Tree.mk (PathMap.insert_comm h ..)

theorem find?_put_other (h : path.same q = false) (tree : Tree) (other : StagedFile) :
    (tree.put q other).files.find? path = tree.files.find? path := by
  rw [put, PathMap.find?_insert, Path.same_comm, h]
  rfl

theorem load_put (h : path.same q = false) (project : Project) (tree : Tree) (other : StagedFile) :
    (tree.put q other).load project path = putBehind q other (tree.load project path) := by
  unfold load
  rw [find?_put_other h]
  cases tree.files.find? path with
  | some file => rfl
  | none =>
    cases project.view.read path with
    | error reason => rfl
    | ok found =>
      cases found with
      | none => rfl
      | some text =>
        dsimp only
        cases StagedFile.ofText project.reader path text with
        | error error => rfl
        | ok file => exact congrArg (Prod.mk _) (put_comm h tree file other)

theorem text_put (h : path.same q = false) (project : Project) (tree : Tree) (other : StagedFile) :
    (tree.put q other).text project path = putBehind q other (tree.text project path) := by
  unfold text
  rw [load_put h]
  rcases tree.load project path with ⟨_ | _, _⟩ <;> rfl

theorem source_put (h : path.same q = false) (project : Project) (tree : Tree)
    (other : StagedFile) :
    (tree.put q other).source project path = putBehind q other (tree.source project path) := by
  unfold source
  rw [load_put h]
  rcases tree.load project path with ⟨_ | file, _⟩
  · rfl
  · cases hs : file.source <;> simp [putBehind, hs]

theorem edit_put (h : path.same q = false) (project : Project) (tree : Tree) (other : StagedFile) :
    (tree.put q other).edit project path = putBehind q other (tree.edit project path) := by
  unfold edit
  rw [load_put h]
  rcases tree.load project path with ⟨_ | _, _⟩ <;> rfl

theorem commit_put {buffer : Buffer} (h : buffer.path.same q = false) (project : Project)
    (tree : Tree) (other : StagedFile) :
    (tree.put q other).commit project buffer = putBehind q other (tree.commit project buffer) := by
  unfold commit
  split
  · rfl
  · cases analyze project.reader buffer.path buffer.text with
    | error error => rfl
    | ok source => exact congrArg (Prod.mk _) (put_comm h tree _ other)

/-- A buffer belongs to the path that it was opened by. -/
theorem path_of_edit {mid : Tree} {buffer : Buffer}
    (h : tree.edit project path = (.ok buffer, mid)) : buffer.path = path := by
  obtain ⟨_, he⟩ | ⟨_, _, he⟩ := edit_cases project tree path
  · simp [he] at h
  · rw [he] at h
    cases h
    rfl

theorem apply_put {plan : EditPlan} (h : plan.target.same q = false) (project : Project)
    (tree : Tree) (other : StagedFile) :
    (tree.put q other).apply project plan = putBehind q other (tree.apply project plan) := by
  cases plan with
  | noOp target rationale =>
    have htarget : target.same q = false := h
    simp only [apply, text_put htarget]
    rcases tree.text project target with ⟨_ | _, _⟩ <;> rfl
  | insert target offset piece rationale =>
    have htarget : target.same q = false := h
    simp only [apply, edit_put htarget]
    rcases he : tree.edit project target with ⟨_ | buffer, mid⟩
    · rfl
    · simp only [putBehind]
      cases hi : buffer.insert offset piece rationale with
      | error error => rfl
      | ok next =>
        refine commit_put ?_ project mid other
        rwa [Buffer.path_of_insert hi, path_of_edit he]

/-- A request goes past a change of another file. -/
theorem Request.run_put {request : Request} (h : request.path.same q = false) (project : Project)
    (tree : Tree) (other : StagedFile) :
    request.run project (tree.put q other) = putBehind q other (request.run project tree) := by
  cases request with
  | text path =>
    have hpath : path.same q = false := h
    simp only [run, text_put hpath, putBehind]
  | source path =>
    have hpath : path.same q = false := h
    simp only [run, source_put hpath, putBehind]
  | apply plan =>
    have htarget : plan.target.same q = false := h
    simp only [run, apply_put htarget, putBehind]
  | record path edits =>
    have hpath : path.same q = false := h
    simp only [run, edit_put hpath]
    rcases he : tree.edit project path with ⟨_ | buffer, mid⟩
    · rfl
    · have hbuffer : (BufferEdit.runAll buffer edits).2.path.same q = false := by
        rwa [BufferEdit.runAll_path, path_of_edit he]
      simp only [putBehind, commit_put hbuffer]

/-- One staging area is another one, but for what is staged under a path. -/
def DiffersAt (path : Path) (tree tree' : Tree) : Prop :=
  tree' = tree ∨ ∃ file, tree' = tree.put path file

theorem DiffersAt.trans {mid last : Tree} (h : DiffersAt path tree mid)
    (h' : DiffersAt path mid last) : DiffersAt path tree last := by
  rcases h' with rfl | ⟨file, rfl⟩
  · exact h
  · rcases h with rfl | ⟨old, rfl⟩
    · exact .inr ⟨file, rfl⟩
    · exact .inr ⟨file, put_put tree path old file⟩

theorem differsAt_load (project : Project) (tree : Tree) (path : Path) :
    DiffersAt path tree (tree.load project path).2 := by
  obtain ⟨_, _, hl⟩ | ⟨_, _, hl⟩ | ⟨text, source, _, _, _, hl⟩ := load_cases project tree path
  · exact .inl (by rw [hl])
  · exact .inl (by rw [hl])
  · exact .inr ⟨fileOf text source, by rw [hl, put]⟩

theorem differsAt_commit (project : Project) (tree : Tree) (buffer : Buffer) :
    DiffersAt buffer.path tree (tree.commit project buffer).2 := by
  obtain ⟨_, hc⟩ | ⟨_, _, _, hc⟩ | ⟨source, _, _, hc⟩ := commit_cases project tree buffer
  · exact .inl (by rw [hc])
  · exact .inl (by rw [hc])
  · exact .inr ⟨_, by rw [hc, put]⟩

theorem differsAt_edit (project : Project) (tree : Tree) (path : Path) :
    DiffersAt path tree (tree.edit project path).2 := by
  rw [edit_tree]
  exact differsAt_load project tree path

theorem differsAt_apply (project : Project) (tree : Tree) (plan : EditPlan) :
    DiffersAt plan.target tree (tree.apply project plan).2 := by
  have hload := differsAt_load project tree plan.target
  obtain ha | ⟨buffer, _, hp, ha⟩ := apply_cases project tree plan
  · rwa [ha]
  · rw [ha]
    exact hload.trans (hp ▸ differsAt_commit project _ buffer)

/-- A request changes nothing but the file it is about. -/
theorem Request.differsAt_run (project : Project) (tree : Tree) (request : Request) :
    DiffersAt request.path tree (request.run project tree).2 := by
  cases request with
  | text path => simpa only [run, Request.path, text_tree] using differsAt_load project tree path
  | source path => simpa only [run, Request.path, source_tree] using differsAt_load project tree path
  | apply plan => exact differsAt_apply project tree plan
  | record path edits =>
    have hedit := differsAt_edit project tree path
    rcases he : tree.edit project path with ⟨_ | buffer, mid⟩
    · simpa only [run, Request.path, he] using hedit
    · have hcommit := differsAt_commit project mid (BufferEdit.runAll buffer edits).2
      rw [BufferEdit.runAll_path, path_of_edit he] at hcommit
      rw [he] at hedit
      simpa only [run, Request.path, he] using hedit.trans hcommit

/-- Two requests that do not notice whether the other one came first. -/
structure Interchangeable (project : Project) (tree : Tree) (a b : Request) : Prop where
  /-- The first is answered the same behind the second. -/
  first : (a.run project (b.run project tree).2).1 = (a.run project tree).1
  /-- The second is answered the same behind the first. -/
  second : (b.run project (a.run project tree).2).1 = (b.run project tree).1
  /-- Both orders leave the same files in the same order, with the same texts, trees and logs. -/
  files : (b.run project (a.run project tree).2).2 = (a.run project (b.run project tree).2).2
  changes : (b.run project (a.run project tree).2).2.changes =
    (a.run project (b.run project tree).2).2.changes
  patch : (b.run project (a.run project tree).2).2.patch =
    (a.run project (b.run project tree).2).2.patch

/-- What a request leaves is the same behind a request about another file. -/
theorem Request.run_run {a b : Request} (h : a.path.same b.path = false) (project : Project)
    (tree : Tree) :
    (a.run project (b.run project tree).2).1 = (a.run project tree).1 ∧
      (b.run project (a.run project tree).2).2 = (a.run project (b.run project tree).2).2 := by
  have hcomm : b.path.same a.path = false := by rw [Path.same_comm, h]
  rcases b.differsAt_run project tree with hb | ⟨file, hb⟩ <;>
    rcases a.differsAt_run project tree with ha | ⟨other, ha⟩
  · simp [ha, hb]
  · simp [ha, hb, Request.run_put hcomm, putBehind]
  · simp [ha, hb, Request.run_put h, putBehind]
  · simp [ha, hb, Request.run_put h, Request.run_put hcomm, putBehind, put_comm h]

/-- Requests about different files can change places, whatever they come to. -/
theorem Request.interchangeable {a b : Request} (h : a.path.same b.path = false)
    (project : Project) (tree : Tree) : Interchangeable project tree a b := by
  have hcomm : b.path.same a.path = false := by rw [Path.same_comm, h]
  obtain ⟨hfirst, hfiles⟩ := Request.run_run h project tree
  obtain ⟨hsecond, _⟩ := Request.run_run hcomm project tree
  exact ⟨hfirst, hsecond, hfiles, congrArg changes hfiles, congrArg patch hfiles⟩

def noteAndData : Project :=
  ⟨.ofTexts ((PathMap.empty.insert ⟨"note.txt"⟩ "naïf").insert ⟨"data.json"⟩ "{}"), fun _ _ => none⟩

def noteRequest : Request :=
  .record ⟨"note.txt"⟩ [.insert ⟨2, "é", "accent"⟩, .insert ⟨3, "x", "inside"⟩]

def dataRequest : Request := .apply (.insert ⟨"data.json"⟩ 1 "," "comma")

theorem Request.interchangeable_noteRequest :
    noteRequest.path.same dataRequest.path = false ∧
      Interchangeable noteAndData .empty noteRequest dataRequest :=
  ⟨by decide +kernel, Request.interchangeable (by decide +kernel) noteAndData .empty⟩

end Tree

end Codemod
