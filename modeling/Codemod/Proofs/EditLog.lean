import Mathlib.Data.List.Induction
import Codemod.Proofs.StagingRun

/-!
The log of a staged file.

Every staged file keeps the text it was loaded with, and replaying its edits on that text gives the
text it has now. Insertions and whole replacements are recorded alike, as offsets into the text of
their time. The text a file was loaded with is the one found when it was first staged, and what is
found later makes no difference to the file.
-/
namespace Codemod

namespace Tree

/-- Replaying the edits of every staged file leads from its first text to its present one. -/
def Logged (tree : Tree) : Prop :=
  ∀ path file, tree.files.find? path = some file →
    EditRecord.replayAll? file.history file.loaded = some file.text

theorem logged_empty : empty.Logged := by
  intro path file h
  simp [empty] at h

theorem logged_insert {tree : Tree} {path : Path} {file : StagedFile} (h : tree.Logged)
    (hf : EditRecord.replayAll? file.history file.loaded = some file.text) :
    Logged ⟨tree.files.insert path file⟩ := by
  intro q found hq
  rw [PathMap.find?_insert] at hq
  split at hq
  · obtain rfl := Option.some.inj hq
    exact hf
  · exact h q found hq

theorem logged_move {project : Project} {tree tree' : Tree} (h : Move project tree tree')
    (hl : tree.Logged) : tree'.Logged := by
  cases h with
  | load _ _ _ => exact logged_insert hl rfl
  | commit hf _ hr _ =>
    apply logged_insert hl
    exact EditRecord.replayAll?_append_of (hl _ _ hf) hr

/-- A move keeps the first text of every staged file, and a file it stages comes from the view. -/
theorem loaded_move {project : Project} {tree tree' : Tree} (h : Move project tree tree')
    {path : Path} {file : StagedFile} (hf : tree'.files.find? path = some file) :
    (∃ old, tree.files.find? path = some old ∧ old.loaded = file.loaded) ∨
    (tree.files.find? path = none ∧
      ∃ key, key.same path = true ∧ project.view.read key = .ok (some file.loaded)) := by
  cases h with
  | @load key text source hn hr _ =>
    rw [PathMap.find?_insert] at hf
    split at hf
    · rename_i hs
      obtain rfl := Option.some.inj hf
      exact .inr ⟨by rw [← PathMap.find?_congr hs, hn], key, hs, hr⟩
    · exact .inl ⟨file, hf, rfl⟩
  | @commit key old text source edits ho _ _ _ =>
    rw [PathMap.find?_insert] at hf
    split at hf
    · rename_i hs
      obtain rfl := Option.some.inj hf
      exact .inl ⟨old, by rw [← PathMap.find?_congr hs, ho], rfl⟩
    · exact .inl ⟨file, hf, rfl⟩

/-- A staged file stays staged. -/
theorem find?_eq_none_of_moves {project : Project} {tree tree' : Tree}
    (h : Moves project tree tree') {path : Path} (hn : tree'.files.find? path = none) :
    tree.files.find? path = none := by
  induction h with
  | refl => exact hn
  | tail _ move ih =>
    apply ih
    cases move <;>
    · rw [PathMap.find?_insert] at hn
      split at hn
      · cases hn
      · exact hn

/-- The same for several moves under one view. -/
theorem loaded_moves {project : Project} {tree tree' : Tree} (h : Moves project tree tree')
    {path : Path} {file : StagedFile} (hf : tree'.files.find? path = some file) :
    (∃ old, tree.files.find? path = some old ∧ old.loaded = file.loaded) ∨
    (tree.files.find? path = none ∧
      ∃ key, key.same path = true ∧ project.view.read key = .ok (some file.loaded)) := by
  induction h generalizing file with
  | refl => exact .inl ⟨file, hf, rfl⟩
  | tail moves move ih =>
    obtain ⟨old, ho, heq⟩ | ⟨hn, key, hk, hr⟩ := loaded_move move hf
    · obtain ⟨first, h1, h2⟩ | ⟨h1, key, hk, hr⟩ := ih ho
      · exact .inl ⟨first, h1, h2.trans heq⟩
      · exact .inr ⟨h1, key, hk, by rw [hr, heq]⟩
    · exact .inr ⟨find?_eq_none_of_moves moves hn, key, hk, hr⟩

/-- A staged file came with the text of another one and has a log that goes on from its log. -/
def Continues (path : Path) (file : StagedFile) (tree : Tree) : Prop :=
  ∃ later, tree.files.find? path = some later ∧ later.loaded = file.loaded ∧
    file.history <+: later.history

theorem continues_move {project : Project} {tree tree' : Tree} (h : Move project tree tree')
    {path : Path} {file : StagedFile} (hc : tree.Continues path file) :
    tree'.Continues path file := by
  obtain ⟨later, hf, hl, hh⟩ := hc
  cases h with
  | @load key text source hn _ _ =>
    refine ⟨later, ?_, hl, hh⟩
    rw [PathMap.find?_insert]
    split
    · rename_i hs
      rw [PathMap.find?_congr hs, hf] at hn
      cases hn
    · exact hf
  | @commit key old text source edits ho _ _ _ =>
    cases hs : key.same path with
    | true =>
      rw [PathMap.find?_congr hs, hf] at ho
      obtain rfl := Option.some.inj ho
      refine ⟨edited later text source edits, ?_, hl, hh.trans (List.prefix_append ..)⟩
      simp [PathMap.find?_insert, hs]
    | false => exact ⟨later, by simpa [PathMap.find?_insert, hs] using hf, hl, hh⟩

end Tree

namespace Session

/-- The text of a file was found by the action that first staged it. -/
def FoundFirst (reader : TreeReader) (actions : List Action) (path : Path) (text : String) : Prop :=
  ∃ before action after, actions = before ++ action :: after ∧
    (start.run reader before).tree.files.find? path = none ∧
    (∃ file, (start.run reader (before ++ [action])).tree.files.find? path = some file) ∧
    ∃ key, key.same path = true ∧ action.view.read key = .ok (some text)

theorem FoundFirst.append {reader : TreeReader} {actions : List Action} {path : Path}
    {text : String} (h : FoundFirst reader actions path text) (more : List Action) :
    FoundFirst reader (actions ++ more) path text := by
  obtain ⟨before, action, after, rfl, h⟩ := h
  exact ⟨before, action, after ++ more, by simp, h⟩

/-- Every staged file was first staged with the text that was found then. -/
theorem foundFirst_run (reader : TreeReader) (actions : List Action) (path : Path)
    (file : StagedFile) (h : (start.run reader actions).tree.files.find? path = some file) :
    FoundFirst reader actions path file.loaded := by
  induction actions using List.reverseRecOn generalizing file with
  | nil => simp [start, Tree.empty] at h
  | append_singleton actions action ih =>
    have hrun : start.run reader (actions ++ [action]) =
        (start.run reader actions).step ⟨action.view, reader⟩ action.command := by
      rw [run_append]
      rfl
    have hmoves := (step_moves ⟨action.view, reader⟩ (sound_run reader sound_start actions)
      action.command).1
    rw [← hrun] at hmoves
    obtain ⟨old, ho, heq⟩ | ⟨hn, key, hk, hr⟩ := Tree.loaded_moves hmoves h
    · exact heq ▸ (ih old ho).append [action]
    · exact ⟨actions, action, [], rfl, hn, ⟨file, h⟩, key, hk, hr⟩

/-- The open buffer, if it belongs to a path. -/
def bufferOf (session : Session) (path : Path) : Option Buffer :=
  session.buffer.filter fun buffer => buffer.path.same path

/-- Two sessions with one staged file under a path and one buffer for it, or none. What else they
hold may differ. -/
structure AgreeOn (path : Path) (s t : Session) : Prop where
  file : ∃ file, s.tree.files.find? path = some file ∧ t.tree.files.find? path = some file
  buffer : s.bufferOf path = t.bufferOf path

theorem agreeOn_refl {path : Path} {session : Session} {file : StagedFile}
    (h : session.tree.files.find? path = some file) : AgreeOn path session session :=
  ⟨⟨file, h, h⟩, rfl⟩

@[simp] theorem bufferOf_none (tree : Tree) (path : Path) :
    bufferOf ⟨tree, none⟩ path = none := rfl

theorem bufferOf_some {tree : Tree} {buffer : Buffer} {path : Path} :
    bufferOf ⟨tree, some buffer⟩ path =
      if buffer.path.same path then some buffer else none := by
  cases h : buffer.path.same path <;> simp [bufferOf, Option.filter, h]

theorem bufferOf_map (session : Session) (path : Path) (f : Buffer → Buffer)
    (h : ∀ buffer, (f buffer).path = buffer.path) :
    bufferOf { session with buffer := session.buffer.map f } path =
      (session.bufferOf path).map f := by
  cases hb : session.buffer with
  | none => simp [bufferOf, hb]
  | some buffer =>
    cases hs : buffer.path.same path <;> simp [bufferOf, hb, Option.filter, h, hs]

theorem insertInto_path (offset : Nat) (piece rationale : String) (buffer : Buffer) :
    (insertInto offset piece rationale buffer).path = buffer.path := by
  unfold insertInto Buffer.insert
  cases Text.insertAt? buffer.text offset piece <;> rfl

theorem replaceAll_path (text rationale : String) (buffer : Buffer) :
    (buffer.replaceAll text rationale).path = buffer.path := by
  unfold Buffer.replaceAll
  split <;> rfl

end Session

namespace Tree

theorem load_of_staged {project : Project} {tree : Tree} {path : Path} {file : StagedFile}
    (h : tree.files.find? path = some file) : tree.load project path = (.ok file, tree) := by
  simp [load, h]

/-- Loading some path leaves a staged file alone. -/
theorem find?_load {project : Project} {tree : Tree} {path : Path} {file : StagedFile}
    (h : tree.files.find? path = some file) (other : Path) :
    (tree.load project other).2.files.find? path = some file := by
  obtain ⟨_, _, hl⟩ | ⟨_, error, hl⟩ | ⟨text, source, hn, _, _, hl⟩ := load_cases project tree other
  · rw [hl, h]
  · rw [hl, h]
  · rw [hl, PathMap.find?_insert]
    split
    · rename_i hs
      rw [PathMap.find?_congr hs, h] at hn
      cases hn
    · exact h

/-- The file that a buffer makes, if it can be committed and says something. -/
def committed (reader : TreeReader) (buffer : Buffer) : Option StagedFile :=
  match analyze reader buffer.path buffer.text with
  | .ok source =>
    if buffer.edits.isEmpty then none
    else some (edited buffer.file buffer.text source buffer.edits)
  | .error _ => none

/-- A staged file after a commit. -/
theorem find?_commit (project : Project) (tree : Tree) (buffer : Buffer) (path : Path) :
    (tree.commit project buffer).2.files.find? path =
      if buffer.path.same path then
        (committed project.reader buffer).or (tree.files.find? path)
      else tree.files.find? path := by
  obtain ⟨he, hc⟩ | ⟨_, error, ha, hc⟩ | ⟨source, he, ha, hc⟩ := commit_cases project tree buffer
  · have hnone : committed project.reader buffer = none := by
      unfold committed
      split <;> simp [he]
    simp [hc, hnone]
  · simp [hc, committed, ha]
  · simp only [hc, PathMap.find?_insert, committed, ha]
    simp [he]

end Tree

namespace Session

theorem AgreeOn.load {path : Path} {s t : Session} (h : AgreeOn path s t) (project : Project)
    (project' : Project) (other : Path) :
    AgreeOn path ⟨(s.tree.load project other).2, none⟩ ⟨(t.tree.load project' other).2, none⟩ := by
  obtain ⟨file, hs, ht⟩ := h.file
  exact ⟨⟨file, Tree.find?_load hs other, Tree.find?_load ht other⟩, rfl⟩

theorem AgreeOn.edit {path : Path} {s t : Session} (h : AgreeOn path s t) {project : Project}
    {project' : Project} (other : Path) :
    AgreeOn path (s.step project (.edit other)) (t.step project' (.edit other)) := by
  obtain ⟨file, hs, ht⟩ := h.file
  cases hsame : other.same path with
  | true =>
    have hs' := hs
    have ht' := ht
    rw [← PathMap.find?_congr hsame] at hs' ht'
    simp only [step, Tree.edit, Tree.load_of_staged hs', Tree.load_of_staged ht']
    exact ⟨⟨file, hs, ht⟩, rfl⟩
  | false =>
    have hload := h.load project project' other
    have hother : ∀ (project : Project) (session : Session),
        (session.step project (.edit other)).tree = (session.tree.load project other).2 ∧
        (session.step project (.edit other)).bufferOf path = none := by
      intro project session
      obtain ⟨error, he⟩ | ⟨file, _, he⟩ := Tree.edit_cases project session.tree other
      · simp [step, he]
      · simp [step, he, bufferOf_some, hsame]
    constructor
    · rw [(hother project s).1, (hother project' t).1]
      exact hload.file
    · rw [(hother project s).2, (hother project' t).2]

theorem AgreeOn.commit {path : Path} {s t : Session} (h : AgreeOn path s t) {project : Project}
    {project' : Project} (hr : project.reader = project'.reader) {buffer : Buffer}
    (hb : buffer.path.same path = true) :
    AgreeOn path ⟨(s.tree.commit project buffer).2, none⟩
      ⟨(t.tree.commit project' buffer).2, none⟩ := by
  obtain ⟨file, hs, ht⟩ := h.file
  refine ⟨?_, rfl⟩
  simp only [Tree.find?_commit, hb, if_true, hr, hs, ht]
  cases Tree.committed project'.reader buffer with
  | none => exact ⟨file, rfl, rfl⟩
  | some file => exact ⟨file, rfl, rfl⟩

/-- A commit for another path leaves the file of a path alone. -/
theorem find?_commit_other {project : Project} {tree : Tree} {buffer : Buffer} {path : Path}
    (hb : buffer.path.same path = false) :
    (tree.commit project buffer).2.files.find? path = tree.files.find? path := by
  simp [Tree.find?_commit, hb]

theorem AgreeOn.apply {path : Path} {s t : Session} (h : AgreeOn path s t) {project : Project}
    {project' : Project} (hr : project.reader = project'.reader) (plan : EditPlan) :
    AgreeOn path (s.step project (.apply plan)) (t.step project' (.apply plan)) := by
  obtain ⟨file, hs, ht⟩ := h.file
  cases hsame : plan.target.same path with
  | true =>
    have hs' := hs
    have ht' := ht
    rw [← PathMap.find?_congr hsame] at hs' ht'
    cases plan with
    | noOp target rationale =>
      simp only [step, Tree.apply_noOp_tree]
      exact h.load project project' target
    | insert target offset piece rationale =>
      simp only [EditPlan.target] at hs' ht' hsame
      cases hi : Buffer.insert ⟨target, file, file.text, []⟩ offset piece rationale with
      | error error =>
        simp only [step, Tree.apply, Tree.edit, Tree.load_of_staged hs', Tree.load_of_staged ht', hi]
        exact ⟨⟨file, hs, ht⟩, rfl⟩
      | ok buffer =>
        have hp : buffer.path = target := by
          have := insertInto_path offset piece rationale ⟨target, file, file.text, []⟩
          simpa [insertInto, hi] using this
        simp only [step, Tree.apply, Tree.edit, Tree.load_of_staged hs', Tree.load_of_staged ht', hi]
        exact h.commit hr (by rw [hp, hsame])
  | false =>
    have hkeep : ∀ (project : Project) (tree : Tree), tree.files.find? path = some file →
        (tree.apply project plan).2.files.find? path = some file := by
      intro project tree hf
      obtain ha | ⟨buffer, _, hp, ha⟩ := Tree.apply_cases project tree plan
      · rw [ha, Tree.find?_load hf]
      · rw [ha, find?_commit_other (by rw [hp, hsame]), Tree.find?_load hf]
    exact ⟨⟨file, hkeep project _ hs, hkeep project' _ ht⟩, rfl⟩

/-- A commit where no buffer is open for a path makes no difference to the path. -/
theorem step_commit_other {session : Session} {path : Path} (h : session.bufferOf path = none)
    (project : Project) :
    (session.step project .commit).tree.files.find? path = session.tree.files.find? path ∧
      (session.step project .commit).bufferOf path = none := by
  cases hb : session.buffer with
  | none => simpa [step, hb] using h
  | some buffer =>
    cases hsame : buffer.path.same path with
    | true => simp [bufferOf, hb, Option.filter, hsame] at h
    | false => simp [step, hb, find?_commit_other hsame]

theorem buffer_of_bufferOf {session : Session} {path : Path} {buffer : Buffer}
    (h : session.bufferOf path = some buffer) :
    session.buffer = some buffer ∧ buffer.path.same path = true :=
  Option.filter_eq_some_iff.1 h

theorem AgreeOn.step_commit {path : Path} {s t : Session} (h : AgreeOn path s t)
    {project : Project} {project' : Project} (hr : project.reader = project'.reader) :
    AgreeOn path (s.step project .commit) (t.step project' .commit) := by
  cases hb : s.bufferOf path with
  | none =>
    obtain ⟨hs, hs'⟩ := step_commit_other hb project
    obtain ⟨ht, ht'⟩ := step_commit_other (h.buffer ▸ hb) project'
    obtain ⟨file, hfs, hft⟩ := h.file
    exact ⟨⟨file, hs.trans hfs, ht.trans hft⟩, hs'.trans ht'.symm⟩
  | some buffer =>
    obtain ⟨hs, hsame⟩ := buffer_of_bufferOf hb
    obtain ⟨ht, _⟩ := buffer_of_bufferOf (h.buffer ▸ hb)
    simpa [Session.step, hs, ht] using h.commit hr hsame

/-- One command keeps two sessions in agreement on a path, whatever each of them finds. -/
theorem AgreeOn.step {path : Path} {s t : Session} (h : AgreeOn path s t) (project : Project)
    (project' : Project) (hr : project.reader = project'.reader) (command : Command) :
    AgreeOn path (s.step project command) (t.step project' command) := by
  obtain ⟨file, hs, ht⟩ := h.file
  cases command with
  | holds other => exact ⟨h.file, rfl⟩
  | drop => exact ⟨h.file, rfl⟩
  | text other => simpa [Session.step] using h.load project project' other
  | source other => simpa [Session.step] using h.load project project' other
  | apply plan => exact h.apply hr plan
  | edit other => exact h.edit other
  | insert offset piece rationale =>
    refine ⟨h.file, ?_⟩
    simp only [Session.step, bufferOf_map _ _ _ (insertInto_path offset piece rationale), h.buffer]
  | replaceAll text rationale =>
    refine ⟨h.file, ?_⟩
    simp only [Session.step, bufferOf_map _ _ _ (replaceAll_path text rationale), h.buffer]
  | commit => exact h.step_commit hr

/-- The same commands keep two sessions in agreement on a path, whatever views they go with. -/
theorem AgreeOn.run (reader : TreeReader) {path : Path} {actions actions' : List Action}
    (hc : actions.map Action.command = actions'.map Action.command) {s t : Session}
    (h : AgreeOn path s t) : AgreeOn path (s.run reader actions) (t.run reader actions') := by
  induction actions generalizing actions' s t with
  | nil =>
    obtain rfl : actions' = [] := by simpa using hc.symm
    exact h
  | cons action rest ih =>
    cases actions' with
    | nil => simp at hc
    | cons action' rest' =>
      simp only [List.map_cons, List.cons.injEq] at hc
      have hstep := h.step ⟨action.view, reader⟩ ⟨action'.view, reader⟩ rfl action.command
      exact ih hc.2 (by simpa [act, ← hc.1] using hstep)

/-- The log of a file that is staged under a path after some actions is faithful. -/
structure FaithfulLog (reader : TreeReader) (actions : List Action) (path : Path)
    (file : StagedFile) : Prop where
  /-- The first text is what was found when the file was first staged. -/
  found : FoundFirst reader actions path file.loaded
  /-- The edits lead from the first text to the present one. -/
  replays : EditRecord.replayAll? file.history file.loaded = some file.text
  /-- Each edit is replayed on a text of its own, with its range on boundaries. -/
  inside : ∀ front record rest, file.history = front ++ record :: rest →
    ∃ mid next, EditRecord.replayAll? front file.loaded = some mid ∧
      record.replay? mid = some next ∧ Text.isBoundary mid record.offset = true ∧
      Text.isBoundary mid (record.offset + record.removed) = true
  /-- What later actions find makes no difference to the file, and the log only goes on. -/
  settled : ∀ more more' : List Action,
    more.map Action.command = more'.map Action.command →
    ∃ later, (start.run reader (actions ++ more)).tree.files.find? path = some later ∧
      (start.run reader (actions ++ more')).tree.files.find? path = some later ∧
      later.loaded = file.loaded ∧ file.history <+: later.history

/-- In every state that a session reaches, the log of every staged file is faithful. -/
theorem faithfulLog_of_staged (reader : TreeReader) (actions : List Action) (path : Path)
    (file : StagedFile) (h : (start.run reader actions).tree.files.find? path = some file) :
    FaithfulLog reader actions path file := by
  have hlog : (start.run reader actions).tree.Logged :=
    run_keeps (P := Tree.Logged) Tree.logged_move sound_start Tree.logged_empty actions
  have hreplay := hlog path file h
  refine ⟨foundFirst_run reader actions path file h, hreplay, ?_, ?_⟩
  · intro front record rest he
    rw [he] at hreplay
    exact EditRecord.exists_replayAll?_of_split hreplay
  · intro more more' hc
    obtain ⟨both, h1, h2⟩ := ((agreeOn_refl h).run reader hc).file
    obtain ⟨later, h3, hl, hh⟩ := run_keeps (P := Tree.Continues path file)
      (fun move => Tree.continues_move move) (sound_run reader sound_start actions)
      ⟨file, h, rfl, List.prefix_refl _⟩ more
    obtain rfl := Option.some.inj (h1.symm.trans h3)
    exact ⟨both, by rwa [run_append], by rwa [run_append], hl, hh⟩

def viewOfOne (path : Path) (text : String) : View :=
  .ofTexts (PathMap.empty.insert path text)

/-- Two edits of a word with letters of two bytes, and one that would land inside a letter; the
file has another text when they take effect. -/
def wordEdits : List Action :=
  let first := viewOfOne ⟨"note.txt"⟩ "naïf"
  let later := viewOfOne ⟨"note.txt"⟩ "gone"
  [⟨first, .edit ⟨"note.txt"⟩⟩, ⟨first, .insert 2 "é" "accent"⟩, ⟨later, .insert 3 "x" "inside"⟩,
    ⟨later, .replaceAll "naéïve" "ending"⟩, ⟨later, .commit⟩]

theorem faithfulLog_wordEdits : ∃ file,
    (start.run (fun _ _ => none) wordEdits).tree.files.find? ⟨"note.txt"⟩ = some file ∧
    file.loaded = "naïf" ∧ file.text = "naéïve" ∧
    file.history = [⟨2, 0, "é", "accent"⟩, ⟨6, 1, "ve", "ending"⟩] ∧
    FaithfulLog (fun _ _ => none) wordEdits ⟨"note.txt"⟩ file := by
  have h : ((start.run (fun _ _ => none) wordEdits).tree.files.find? ⟨"note.txt"⟩).map
      (fun file => (file.loaded, file.text, file.history)) =
        some ("naïf", "naéïve", [⟨2, 0, "é", "accent"⟩, ⟨6, 1, "ve", "ending"⟩]) := by
    decide +kernel
  obtain ⟨file, hf, he⟩ := Option.map_eq_some_iff.1 h
  simp only [Prod.mk.injEq] at he
  exact ⟨file, hf, he.1, he.2.1, he.2.2, faithfulLog_of_staged _ _ _ file hf⟩

end Session

end Codemod
