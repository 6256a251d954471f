import Codemod.Staging.Tree
import Codemod.Proofs.PathMaps
import Codemod.Proofs.Splices

/-!
Runs of the staging area.

A session is a staging area with at most one open buffer. Whoever asks the area itself gives up an
open buffer, and an edit without one does nothing, so every order of commands is a run. Each action
brings the view that is read during it, which may be another one every time.

`Session.act_moves` says once what an action can do to the area: a file is loaded, or the edits of
a buffer take effect on a file. What both keep holds after every run.
-/
namespace Codemod

namespace Session

inductive Command where
  | holds (path : Path)
  | text (path : Path)
  | source (path : Path)
  | apply (plan : EditPlan)
  | edit (path : Path)
  | insert (offset : Nat) (piece rationale : String)
  | replaceAll (text rationale : String)
  | commit
  | drop

def Command.isEdit : Command → Bool
  | insert .. | replaceAll .. => true
  | _ => false

/-- A command, and the files that are found while it is carried out. -/
structure Action where
  view : View
  command : Command

end Session

/-- A staging area and the buffer that is open, if one is. -/
structure Session where
  tree : Tree
  buffer : Option Buffer

namespace Session

def start : Session := ⟨.empty, none⟩

def insertInto (offset : Nat) (piece rationale : String) (buffer : Buffer) : Buffer :=
  match buffer.insert offset piece rationale with
  | .ok buffer => buffer
  | .error _ => buffer

def step (project : Project) (session : Session) : Command → Session
  | .holds _ => ⟨session.tree, none⟩
  | .text path => ⟨(session.tree.text project path).2, none⟩
  | .source path => ⟨(session.tree.source project path).2, none⟩
  | .apply plan => ⟨(session.tree.apply project plan).2, none⟩
  | .edit path =>
    match session.tree.edit project path with
    | (.ok buffer, tree) => ⟨tree, some buffer⟩
    | (.error _, tree) => ⟨tree, none⟩
  | .insert offset piece rationale =>
    { session with buffer := session.buffer.map (insertInto offset piece rationale) }
  | .replaceAll text rationale =>
    { session with buffer := session.buffer.map fun buffer => buffer.replaceAll text rationale }
  | .commit =>
    match session.buffer with
    | some buffer => ⟨(session.tree.commit project buffer).2, none⟩
    | none => session
  | .drop => ⟨session.tree, none⟩

def act (reader : TreeReader) (session : Session) (action : Action) : Session :=
  session.step ⟨action.view, reader⟩ action.command

def run (reader : TreeReader) (session : Session) (actions : List Action) : Session :=
  actions.foldl (act reader) session

@[simp] theorem run_nil (reader : TreeReader) (session : Session) :
    session.run reader [] = session := rfl

@[simp] theorem run_cons (reader : TreeReader) (session : Session) (action : Action)
    (rest : List Action) :
    session.run reader (action :: rest) = (session.act reader action).run reader rest := rfl

theorem run_append (reader : TreeReader) (session : Session) (first rest : List Action) :
    session.run reader (first ++ rest) = (session.run reader first).run reader rest := by
  simp [run]

end Session

namespace StagedFile

theorem ofText_eq_ok {reader : TreeReader} {path : Path} {text : String} {file : StagedFile}
    (h : ofText reader path text = .ok file) :
    ∃ source, analyze reader path text = .ok source ∧ file = ⟨text, text, source, []⟩ := by
  cases ha : analyze reader path text with
  | error error => simp [ofText, ha, Except.map] at h
  | ok source =>
    simp only [ofText, ha, Except.map, Except.ok.injEq] at h
    exact ⟨source, rfl, h.symm⟩

end StagedFile

namespace Tree

/-- A file with a text of its own and nothing done to it. -/
def fileOf (text : String) (source : Option SourceFile) : StagedFile := ⟨text, text, source, []⟩

/-- A file after edits that took effect together. -/
def edited (file : StagedFile) (text : String) (source : Option SourceFile)
    (edits : List EditRecord) : StagedFile :=
  { file with text, source, history := file.history ++ edits }

/-- The two things that happen to a staging area. -/
inductive Move (project : Project) : Tree → Tree → Prop
  /-- A file that was not staged is loaded. -/
  | load {tree : Tree} {path : Path} {text : String} {source : Option SourceFile} :
    tree.files.find? path = none → project.view.read path = .ok (some text) →
    analyze project.reader path text = .ok source →
    Move project tree ⟨tree.files.insert path (fileOf text source)⟩
  /-- Edits of a staged file take effect. -/
  | commit {tree : Tree} {path : Path} {file : StagedFile} {text : String}
      {source : Option SourceFile} {edits : List EditRecord} :
    tree.files.find? path = some file → edits ≠ [] →
    EditRecord.replayAll? edits file.text = some text →
    analyze project.reader path text = .ok source →
    Move project tree ⟨tree.files.insert path (edited file text source edits)⟩

/-- Any number of these, one after another. -/
inductive Moves (project : Project) : Tree → Tree → Prop
  | refl (tree : Tree) : Moves project tree tree
  | tail {tree mid last : Tree} : Moves project tree mid → Move project mid last →
    Moves project tree last

variable {project : Project}

theorem Move.moves {tree last : Tree} (h : Move project tree last) : Moves project tree last :=
  .tail (.refl tree) h

/-- What every move keeps, any number of moves keeps. -/
theorem Moves.keeps {P : Tree → Prop} (step : ∀ {s t}, Move project s t → P s → P t)
    {tree last : Tree} (h : Moves project tree last) (start : P tree) : P last := by
  induction h with
  | refl => exact start
  | tail _ move ih => exact step move ih

/-- What loading a path comes to. -/
theorem load_cases (project : Project) (tree : Tree) (path : Path) :
    (∃ file, tree.files.find? path = some file ∧ tree.load project path = (.ok file, tree)) ∨
    (tree.files.find? path = none ∧ ∃ error, tree.load project path = (.error error, tree)) ∨
    ∃ text source, tree.files.find? path = none ∧
      project.view.read path = .ok (some text) ∧
      analyze project.reader path text = .ok source ∧
      tree.load project path =
        (.ok (fileOf text source), ⟨tree.files.insert path (fileOf text source)⟩) := by
  cases hf : tree.files.find? path with
  | some file => exact .inl ⟨file, rfl, by simp [load, hf]⟩
  | none =>
    refine .inr ?_
    cases hr : project.view.read path with
    | error reason => exact .inl ⟨rfl, .unreadable reason, by simp [load, hf, hr]⟩
    | ok found =>
      cases found with
      | none => exact .inl ⟨rfl, .plan (.targetMissing (some path)), by simp [load, hf, hr]⟩
      | some text =>
        cases ht : StagedFile.ofText project.reader path text with
        | error error => exact .inl ⟨rfl, .source error, by simp [load, hf, hr, ht]⟩
        | ok file =>
          obtain ⟨source, ha, rfl⟩ := StagedFile.ofText_eq_ok ht
          exact .inr ⟨text, source, rfl, rfl, ha, by simp [load, hf, hr, ht, fileOf]⟩

theorem load_moves (project : Project) (tree : Tree) (path : Path) :
    Moves project tree (tree.load project path).2 := by
  obtain ⟨file, _, h⟩ | ⟨_, error, h⟩ | ⟨text, source, hf, hr, ha, h⟩ :=
    load_cases project tree path
  · simpa [h] using Moves.refl tree
  · simpa [h] using Moves.refl tree
  · simpa [h] using (Move.load hf hr ha).moves

/-- A loaded file is staged under the path. -/
theorem find?_of_load_ok {tree tree' : Tree} {path : Path} {file : StagedFile}
    (h : tree.load project path = (.ok file, tree')) : tree'.files.find? path = some file := by
  obtain ⟨file', hf, h'⟩ | ⟨_, error, h'⟩ | ⟨text, source, _, _, _, h'⟩ :=
    load_cases project tree path
  · rw [h'] at h
    cases h
    exact hf
  · simp [h'] at h
  · rw [h'] at h
    cases h
    exact PathMap.find?_insert_self ..

/-- Loading a file stages no other. -/
theorem find?_load_other {tree : Tree} {path q : Path} (h : path.same q = false) :
    (tree.load project path).2.files.find? q = tree.files.find? q := by
  obtain ⟨_, _, he⟩ | ⟨_, _, he⟩ | ⟨_, _, _, _, _, he⟩ := load_cases project tree path
  · rw [he]
  · rw [he]
  · rw [he, PathMap.find?_insert, h]
    rfl

/-- A file that was asked for before is found as it was. -/
theorem load_load (project : Project) (tree : Tree) (path : Path) :
    (tree.load project path).2.load project path = tree.load project path := by
  obtain ⟨_, _, h⟩ | ⟨_, _, h⟩ | ⟨_, _, _, _, _, h⟩ := load_cases project tree path
  · simp only [h]
  · simp only [h]
  · simp only [h]
    simp [load, PathMap.find?_insert_self]

theorem text_load (project : Project) (tree : Tree) (path : Path) :
    (tree.load project path).2.text project path = tree.text project path := by
  unfold text
  rw [load_load]

theorem source_load (project : Project) (tree : Tree) (path : Path) :
    (tree.load project path).2.source project path = tree.source project path := by
  unfold source
  rw [load_load]

theorem edit_load (project : Project) (tree : Tree) (path : Path) :
    (tree.load project path).2.edit project path = tree.edit project path := by
  unfold edit
  rw [load_load]

theorem apply_load (project : Project) (tree : Tree) (plan : EditPlan) :
    (tree.load project plan.target).2.apply project plan = tree.apply project plan := by
  cases plan with
  | noOp target rationale => simp only [apply, EditPlan.target, text_load]
  | insert target offset piece rationale => simp only [apply, EditPlan.target, edit_load]

@[simp] theorem text_tree (project : Project) (tree : Tree) (path : Path) :
    (tree.text project path).2 = (tree.load project path).2 := by
  unfold text
  split <;> simp [*]

@[simp] theorem source_tree (project : Project) (tree : Tree) (path : Path) :
    (tree.source project path).2 = (tree.load project path).2 := by
  unfold source
  split
  · split <;> simp [*]
  · simp [*]

/-- A source file that was asked for is staged. -/
theorem source_staged {tree tree' : Tree} {path : Path} {source : SourceFile}
    (h : tree.source project path = (.ok source, tree')) :
    ∃ file, tree'.files.find? path = some file ∧ file.source = some source := by
  unfold Tree.source at h
  split at h
  · rename_i file mid hl
    split at h
    · rename_i found hs
      cases h
      exact ⟨file, find?_of_load_ok hl, hs⟩
    · cases h
  · cases h

/-- What opening a buffer comes to. -/
theorem edit_cases (project : Project) (tree : Tree) (path : Path) :
    (∃ error, tree.edit project path = (.error error, (tree.load project path).2)) ∨
    ∃ file, (tree.load project path).2.files.find? path = some file ∧
      tree.edit project path =
        (.ok ⟨path, file, file.text, []⟩, (tree.load project path).2) := by
  cases hl : tree.load project path with
  | mk answer tree' =>
    cases answer with
    | error error => exact .inl ⟨error, by simp [edit, hl]⟩
    | ok file => exact .inr ⟨file, find?_of_load_ok hl, by simp [edit, hl]⟩

/-- A buffer whose edits lead from the text of a staged file to its own. -/
structure Holds (tree : Tree) (buffer : Buffer) : Prop where
  staged : tree.files.find? buffer.path = some buffer.file
  replays : EditRecord.replayAll? buffer.edits buffer.file.text = some buffer.text

theorem holds_of_edit {tree tree' : Tree} {path : Path} {buffer : Buffer}
    (h : tree.edit project path = (.ok buffer, tree')) : Holds tree' buffer := by
  obtain ⟨error, h'⟩ | ⟨file, hf, h'⟩ := edit_cases project tree path
  · simp [h'] at h
  · rw [h'] at h
    cases h
    exact ⟨hf, rfl⟩

/-- What committing a buffer comes to. -/
theorem commit_cases (project : Project) (tree : Tree) (buffer : Buffer) :
    (buffer.edits = [] ∧
      tree.commit project buffer = (.ok ⟨buffer.path, false, buffer.file.text⟩, tree)) ∨
    (buffer.edits ≠ [] ∧ ∃ error, analyze project.reader buffer.path buffer.text = .error error ∧
      tree.commit project buffer = (.error (.wouldCorrupt buffer.path error), tree)) ∨
    ∃ source, buffer.edits ≠ [] ∧
      analyze project.reader buffer.path buffer.text = .ok source ∧
      tree.commit project buffer = (.ok ⟨buffer.path, true, buffer.text⟩,
        ⟨tree.files.insert buffer.path (edited buffer.file buffer.text source buffer.edits)⟩) := by
  cases he : buffer.edits with
  | nil => exact .inl ⟨rfl, by simp [commit, he]⟩
  | cons record rest =>
    refine .inr ?_
    cases ha : analyze project.reader buffer.path buffer.text with
    | error error => exact .inl ⟨by simp, error, rfl, by simp [commit, he, ha]⟩
    | ok source => exact .inr ⟨source, by simp, rfl, by simp [commit, he, ha, edited]⟩

theorem commit_moves {tree : Tree} {buffer : Buffer} (h : Holds tree buffer) :
    Moves project tree (tree.commit project buffer).2 := by
  obtain ⟨_, hc⟩ | ⟨_, error, _, hc⟩ | ⟨source, he, ha, hc⟩ := commit_cases project tree buffer
  · simpa [hc] using Moves.refl tree
  · simpa [hc] using Moves.refl tree
  · simpa [hc] using (Move.commit h.staged he h.replays ha).moves

/-- A buffer keeps its hold on a file through an edit. -/
theorem Holds.insertInto {tree : Tree} {buffer : Buffer} (h : Holds tree buffer) (offset : Nat)
    (piece rationale : String) : Holds tree (Session.insertInto offset piece rationale buffer) := by
  unfold Session.insertInto Buffer.insert
  cases hi : Text.insertAt? buffer.text offset piece with
  | none => exact h
  | some text =>
    refine ⟨h.staged, EditRecord.replayAll?_append_of h.replays ?_⟩
    rw [EditRecord.replayAll?_singleton, EditRecord.replay?, Text.replaceAt?_zero]
    exact hi

theorem Holds.replaceAll {tree : Tree} {buffer : Buffer} (h : Holds tree buffer)
    (text rationale : String) : Holds tree (buffer.replaceAll text rationale) := by
  unfold Buffer.replaceAll
  split
  · exact h
  · refine ⟨h.staged, EditRecord.replayAll?_append_of h.replays ?_⟩
    rw [EditRecord.replayAll?_singleton]
    exact Splice.replaceAt?_between buffer.text text

theorem apply_noOp {tree : Tree} {path : Path} {file : StagedFile}
    (h : tree.files.find? path = some file) (rationale : String) :
    tree.apply project (.noOp path rationale) = (.ok ⟨path, false, file.text⟩, tree) := by
  simp [apply, text, load, h]

/-- What carrying out an insertion into a staged file comes to. -/
theorem apply_insert {tree : Tree} {path : Path} {file : StagedFile}
    (h : tree.files.find? path = some file) (offset : Nat) (piece rationale : String) :
    tree.apply project (.insert path offset piece rationale) =
      match Text.insertAt? file.text offset piece with
      | none => (.error (.offsetOutside path offset (Text.size file.text)), tree)
      | some text =>
        match analyze project.reader path text with
        | .error error => (.error (.wouldCorrupt path error), tree)
        | .ok source => (.ok ⟨path, true, text⟩, ⟨tree.files.insert path
            (edited file text source [⟨offset, 0, piece, rationale⟩])⟩) := by
  simp only [apply, edit, load, h, Buffer.insert]
  cases Text.insertAt? file.text offset piece with
  | none => rfl
  | some text =>
    simp only [commit, List.nil_append, List.isEmpty_cons, Bool.false_eq_true, if_false]
    cases analyze project.reader path text <;> rfl

theorem apply_noOp_tree (project : Project) (tree : Tree) (target : Path) (rationale : String) :
    (tree.apply project (.noOp target rationale)).2 = (tree.load project target).2 := by
  rw [← text_tree]
  simp only [apply]
  split <;> simp [*]

/-- What carrying out a plan comes to: a failure or nothing to do after loading, or a commit of a
buffer with the one insertion. -/
theorem apply_cases (project : Project) (tree : Tree) (plan : EditPlan) :
    (tree.apply project plan).2 = (tree.load project plan.target).2 ∨
    ∃ buffer, Holds (tree.load project plan.target).2 buffer ∧ buffer.path = plan.target ∧
      tree.apply project plan = (tree.load project plan.target).2.commit project buffer := by
  cases plan with
  | noOp target rationale => exact .inl (apply_noOp_tree ..)
  | insert target offset piece rationale =>
    obtain ⟨error, he⟩ | ⟨file, hf, he⟩ := edit_cases project tree target
    · exact .inl (by simp [apply, he, EditPlan.target])
    · have hold : Holds (tree.load project target).2 ⟨target, file, file.text, []⟩ := ⟨hf, rfl⟩
      have hnext := hold.insertInto offset piece rationale
      cases hi : Buffer.insert ⟨target, file, file.text, []⟩ offset piece rationale with
      | error error => exact .inl (by simp [apply, he, hi, EditPlan.target])
      | ok buffer =>
        refine .inr ⟨buffer, ?_, ?_, by simp [apply, he, hi, EditPlan.target]⟩
        · simpa [Session.insertInto, hi, EditPlan.target] using hnext
        · unfold Buffer.insert at hi
          split at hi
          · cases hi
            rfl
          · simp at hi

theorem Moves.trans {tree mid last : Tree} (h : Moves project tree mid)
    (h' : Moves project mid last) : Moves project tree last := by
  induction h' with
  | refl => exact h
  | tail _ move ih => exact .tail ih move

theorem apply_moves (project : Project) (tree : Tree) (plan : EditPlan) :
    Moves project tree (tree.apply project plan).2 := by
  have hload := load_moves project tree plan.target
  obtain h | ⟨buffer, hold, _, h⟩ := apply_cases project tree plan
  · rwa [h]
  · rw [h]
    exact hload.trans (commit_moves hold)

end Tree

namespace Session

/-- An open buffer belongs to a staged file as it is. -/
def Sound (session : Session) : Prop :=
  ∀ buffer, session.buffer = some buffer → session.tree.Holds buffer

theorem sound_start : start.Sound := by simp [Sound, start]

/-- What a command does to the staging area, and that an open buffer stays sound. -/
theorem step_moves (project : Project) {session : Session} (h : session.Sound)
    (command : Command) :
    Tree.Moves project session.tree (session.step project command).tree ∧
      (session.step project command).Sound := by
  cases command with
  | holds path => exact ⟨.refl _, by simp [Sound, step]⟩
  | drop => exact ⟨.refl _, by simp [Sound, step]⟩
  | text path => exact ⟨by simpa [step] using Tree.load_moves .., by simp [Sound, step]⟩
  | source path => exact ⟨by simpa [step] using Tree.load_moves .., by simp [Sound, step]⟩
  | apply plan => exact ⟨Tree.apply_moves .., by simp [Sound, step]⟩
  | edit path =>
    have hload := Tree.load_moves project session.tree path
    obtain ⟨error, he⟩ | ⟨file, hf, he⟩ := Tree.edit_cases project session.tree path
    · exact ⟨by simpa [step, he] using hload, by simp [Sound, step, he]⟩
    · refine ⟨by simpa [step, he] using hload, ?_⟩
      intro buffer hb
      simp only [step, he, Option.some.injEq] at hb
      subst hb
      simpa [step, he] using Tree.holds_of_edit he
  | insert offset piece rationale =>
    refine ⟨.refl _, ?_⟩
    intro buffer hb
    obtain ⟨old, ho, rfl⟩ := Option.map_eq_some_iff.1 hb
    exact (h old ho).insertInto offset piece rationale
  | replaceAll text rationale =>
    refine ⟨.refl _, ?_⟩
    intro buffer hb
    obtain ⟨old, ho, rfl⟩ := Option.map_eq_some_iff.1 hb
    exact (h old ho).replaceAll text rationale
  | commit =>
    cases hb : session.buffer with
    | none => exact ⟨by simpa [step, hb] using Tree.Moves.refl _, by simpa [step, hb] using h⟩
    | some buffer =>
      refine ⟨by simpa [step, hb] using Tree.commit_moves (h buffer hb), ?_⟩
      simp [Sound, step, hb]

theorem sound_run (reader : TreeReader) {session : Session} (h : session.Sound)
    (actions : List Action) : (session.run reader actions).Sound := by
  induction actions generalizing session with
  | nil => exact h
  | cons action rest ih => exact ih (step_moves ⟨action.view, reader⟩ h action.command).2

/-- What every move keeps, whatever is found then, holds after every run. -/
theorem run_keeps {reader : TreeReader} {P : Tree → Prop}
    (move : ∀ {view s t}, Tree.Move ⟨view, reader⟩ s t → P s → P t)
    {session : Session} (h : session.Sound) (hp : P session.tree) (actions : List Action) :
    P (session.run reader actions).tree := by
  induction actions generalizing session with
  | nil => exact hp
  | cons action rest ih =>
    obtain ⟨moves, sound⟩ := step_moves ⟨action.view, reader⟩ h action.command
    exact ih sound (moves.keeps move hp)

end Session

end Codemod
