import Mathlib.Data.List.Forall2
import Codemod.Proofs.Patches
import Codemod.Proofs.ProjectTexts

/-!
Paths in other spellings.

Two runs of the staging area are compared in which the same is done under paths that have the same
components. Each relation `Respelled` says that two things are one up to the spelling of the paths
in them. Where two staging areas are related, so are the answers of each operation and the areas
after it; this holds of looking up and inserting a key, and goes from there through the operations
to every command, and by induction to runs.
-/
namespace Codemod

/-- Two outcomes that are both results or both failures, related as such. -/
inductive Paired {ε α : Type} (E : ε → ε → Prop) (R : α → α → Prop) :
    Except ε α → Except ε α → Prop
  | ok {a b : α} : R a b → Paired E R (.ok a) (.ok b)
  | error {e f : ε} : E e f → Paired E R (.error e) (.error f)

structure SourceFile.Respelled (s t : SourceFile) : Prop where
  path : s.path.same t.path = true
  language : s.language = t.language
  text : s.text = t.text
  root : s.root = t.root

/-- Refusals of one kind with the same details. -/
inductive SourceError.Respelled : SourceError → SourceError → Prop
  | unsupportedLanguage {p q : Path} : p.same q = true →
    SourceError.Respelled (.unsupportedLanguage p) (.unsupportedLanguage q)
  | malformed {p q : Path} : p.same q = true → SourceError.Respelled (.malformed p) (.malformed q)
  | malformedData {p q : Path} {fault : Json.Fault} : p.same q = true →
    SourceError.Respelled (.malformedData p fault) (.malformedData q fault)

/-- Failures of one kind with the same details, among those of staging texts that are given. -/
inductive EditError.Respelled : EditError → EditError → Prop
  | source {e f : SourceError} : e.Respelled f → EditError.Respelled (.source e) (.source f)
  | targetMissing {p q : Path} : p.same q = true →
    EditError.Respelled (.plan (.targetMissing (some p))) (.plan (.targetMissing (some q)))
  | wouldCorrupt {p q : Path} {e f : SourceError} : p.same q = true → e.Respelled f →
    EditError.Respelled (.wouldCorrupt p e) (.wouldCorrupt q f)
  | offsetOutside {p q : Path} {offset size : Nat} : p.same q = true →
    EditError.Respelled (.offsetOutside p offset size) (.offsetOutside q offset size)

structure StagedFile.Respelled (f g : StagedFile) : Prop where
  loaded : f.loaded = g.loaded
  text : f.text = g.text
  source : Option.Rel SourceFile.Respelled f.source g.source
  history : f.history = g.history

structure PatchResult.Respelled (a b : PatchResult) : Prop where
  target : a.target.same b.target = true
  applied : a.applied = b.applied
  finalText : a.finalText = b.finalText

structure Buffer.Respelled (a b : Buffer) : Prop where
  path : a.path.same b.path = true
  file : a.file.Respelled b.file
  text : a.text = b.text
  edits : a.edits = b.edits

inductive EditPlan.Respelled : EditPlan → EditPlan → Prop
  | noOp {p q : Path} {rationale : String} : p.same q = true →
    EditPlan.Respelled (.noOp p rationale) (.noOp q rationale)
  | insert {p q : Path} {offset : Nat} {text rationale : String} : p.same q = true →
    EditPlan.Respelled (.insert p offset text rationale) (.insert q offset text rationale)

/-- Maps with related values, under the same keys in the same order. -/
def PathMap.Respelled {β : Type} (R : β → β → Prop) (m n : PathMap β) : Prop :=
  List.Forall₂ (fun a b => a.1.same b.1 = true ∧ R a.2 b.2) m.entries n.entries

def Tree.Respelled (s t : Tree) : Prop := s.files.Respelled StagedFile.Respelled t.files

namespace Path

theorem same_congr₂ {p p' q q' : Path} (hp : p.same p' = true) (hq : q.same q' = true) :
    p.same q = p'.same q' := by simp only [same, same_iff.1 hp, same_iff.1 hq]

theorem compare_congr₂ {p p' q q' : Path} (hp : p.same p' = true) (hq : q.same q' = true) :
    p.compare q = p'.compare q' := by simp only [compare, same_iff.1 hp, same_iff.1 hq]

end Path

namespace PathMap

variable {β : Type} {R : β → β → Prop} {m n : PathMap β} {p q : Path}

theorem Respelled.find? (h : m.Respelled R n) (hp : p.same q = true) :
    Option.Rel R (m.find? p) (n.find? q) := by
  obtain ⟨entries⟩ := m
  obtain ⟨entries'⟩ := n
  simp only [PathMap.Respelled, PathMap.find?] at h ⊢
  induction h with
  | nil => exact .none
  | cons hentry _ ih =>
    rw [ findEntry?, findEntry?, Path.same_congr₂ hentry.1 hp]
    split
    · exact .some hentry.2
    · exact ih

theorem Respelled.insert (h : m.Respelled R n) (hp : p.same q = true) {v w : β} (hr : R v w) :
    (m.insert p v).Respelled R (n.insert q w) := by
  obtain ⟨entries⟩ := m
  obtain ⟨entries'⟩ := n
  simp only [PathMap.Respelled, PathMap.insert] at h ⊢
  induction h with
  | nil => exact .cons ⟨hp, hr⟩ .nil
  | @cons a b as bs hentry hrest ih =>
    rw [insertEntry, insertEntry, Path.compare_congr₂ hp hentry.1]
    cases q.compare b.1 with
    | lt => exact .cons ⟨hp, hr⟩ (.cons hentry hrest)
    | eq => exact .cons ⟨hentry.1, hr⟩ hrest
    | gt => exact .cons hentry ih

end PathMap

section Operations

variable (reader : TreeReader) (texts : PathMap String) {p q : Path}

/-- Which language is read, and what is accepted, does not depend on the spelling. -/
theorem analyze_respelled (h : p.same q = true) (text : String) :
    Paired SourceError.Respelled (Option.Rel SourceFile.Respelled) (analyze reader p text)
      (analyze reader q text) := by
  unfold analyze
  rw [Language.ofPath?_congr h, Path.extension_congr h]
  cases Language.ofPath? q with
  | some language =>
    simp only [SourceFile.readAs]
    cases reader language text with
    | none => exact .error (.malformed h)
    | some root => exact .ok (.some ⟨h, rfl, rfl, rfl⟩)
  | none =>
    dsimp only
    split
    · cases Json.read text with
      | error fault => exact .error (.malformedData h)
      | ok value => exact .ok .none
    · exact .ok .none

theorem StagedFile.ofText_respelled (h : p.same q = true) (text : String) :
    Paired SourceError.Respelled StagedFile.Respelled (ofText reader p text)
      (ofText reader q text) := by
  have hanalyze := analyze_respelled reader h text
  unfold ofText
  generalize analyze reader p text = a at hanalyze
  generalize analyze reader q text = b at hanalyze
  cases hanalyze with
  | ok hsource => exact .ok ⟨rfl, rfl, hsource, rfl⟩
  | error he => exact .error he

namespace Tree

/-- What two operations answer, and what they leave, is the same up to the spelling of paths. -/
structure Agree {α : Type} (R : α → α → Prop) (a b : Result α) : Prop where
  answer : Paired EditError.Respelled R a.1 b.1
  tree : a.2.Respelled b.2

theorem Agree.cases {α : Type} {R : α → α → Prop} {a b : Result α} (h : Agree R a b) :
    (∃ x y s t, a = (.ok x, s) ∧ b = (.ok y, t) ∧ R x y ∧ s.Respelled t) ∨
    ∃ e f s t, a = (.error e, s) ∧ b = (.error f, t) ∧ e.Respelled f ∧ s.Respelled t := by
  obtain ⟨a, s⟩ := a
  obtain ⟨b, t⟩ := b
  obtain ⟨hanswer, htree⟩ := h
  cases hanswer with
  | ok hr => exact .inl ⟨_, _, s, t, rfl, rfl, hr, htree⟩
  | error he => exact .inr ⟨_, _, s, t, rfl, rfl, he, htree⟩

variable {s t : Tree}

theorem Respelled.load (h : s.Respelled t) (hp : p.same q = true) :
    Agree StagedFile.Respelled (s.load (.ofTexts reader texts) p)
      (t.load (.ofTexts reader texts) q) := by
  have hfind := PathMap.Respelled.find? h hp
  unfold Tree.load
  generalize s.files.find? p = found at hfind
  generalize t.files.find? q = found' at hfind
  cases hfind with
  | some hfile => exact ⟨.ok hfile, h⟩
  | none =>
    simp only [Project.ofTexts, View.ofTexts, PathMap.find?_congr hp]
    cases texts.find? q with
    | none => exact ⟨.error (.targetMissing hp), h⟩
    | some text =>
      have hfile := StagedFile.ofText_respelled reader hp text
      dsimp only
      generalize StagedFile.ofText reader p text = a at hfile
      generalize StagedFile.ofText reader q text = b at hfile
      cases hfile with
      | ok hfile => exact ⟨.ok hfile, PathMap.Respelled.insert h hp hfile⟩
      | error he => exact ⟨.error (.source he), h⟩

theorem Respelled.text (h : s.Respelled t) (hp : p.same q = true) :
    Agree Eq (s.text (.ofTexts reader texts) p) (t.text (.ofTexts reader texts) q) := by
  obtain ⟨x, y, s', t', ha, hb, hfile, htree⟩ | ⟨e, f, s', t', ha, hb, he, htree⟩ :=
    (h.load reader texts hp).cases
  · simp only [Tree.text, ha, hb]
    exact ⟨.ok hfile.text, htree⟩
  · simp only [Tree.text, ha, hb]
    exact ⟨.error he, htree⟩

theorem Respelled.source (h : s.Respelled t) (hp : p.same q = true) :
    Agree SourceFile.Respelled (s.source (.ofTexts reader texts) p)
      (t.source (.ofTexts reader texts) q) := by
  obtain ⟨x, y, s', t', ha, hb, hfile, htree⟩ | ⟨e, f, s', t', ha, hb, he, htree⟩ :=
    (h.load reader texts hp).cases
  · simp only [Tree.source, ha, hb]
    have hsource := hfile.source
    generalize x.source = found at hsource
    generalize y.source = found' at hsource
    cases hsource with
    | some hsource => exact ⟨.ok hsource, htree⟩
    | none => exact ⟨.error (.source (.unsupportedLanguage hp)), htree⟩
  · simp only [Tree.source, ha, hb]
    exact ⟨.error he, htree⟩

theorem Respelled.edit (h : s.Respelled t) (hp : p.same q = true) :
    Agree Buffer.Respelled (s.edit (.ofTexts reader texts) p)
      (t.edit (.ofTexts reader texts) q) := by
  obtain ⟨x, y, s', t', ha, hb, hfile, htree⟩ | ⟨e, f, s', t', ha, hb, he, htree⟩ :=
    (h.load reader texts hp).cases
  · simp only [Tree.edit, ha, hb]
    exact ⟨.ok ⟨hp, hfile, hfile.text, rfl⟩, htree⟩
  · simp only [Tree.edit, ha, hb]
    exact ⟨.error he, htree⟩

end Tree

namespace Buffer

variable {a b : Buffer}

theorem Respelled.insert (h : a.Respelled b) (offset : Nat) (piece rationale : String) :
    Paired EditError.Respelled Buffer.Respelled (a.insert offset piece rationale)
      (b.insert offset piece rationale) := by
  unfold Buffer.insert
  rw [h.text]
  cases Text.insertAt? b.text offset piece with
  | none => exact .error (.offsetOutside h.path)
  | some text => exact .ok ⟨h.path, h.file, rfl, by simp only [h.edits]⟩

theorem Respelled.replaceAll (h : a.Respelled b) (text rationale : String) :
    (a.replaceAll text rationale).Respelled (b.replaceAll text rationale) := by
  unfold Buffer.replaceAll
  rw [h.text]
  split
  · exact h
  · exact ⟨h.path, h.file, rfl, by simp only [h.edits]⟩

theorem Respelled.insertInto (h : a.Respelled b) (offset : Nat) (piece rationale : String) :
    (Session.insertInto offset piece rationale a).Respelled
      (Session.insertInto offset piece rationale b) := by
  have hinsert := h.insert offset piece rationale
  unfold Session.insertInto
  generalize a.insert offset piece rationale = x at hinsert
  generalize b.insert offset piece rationale = y at hinsert
  cases hinsert with
  | ok hbuffer => exact hbuffer
  | error _ => exact h

end Buffer

namespace Tree

variable {s t : Tree}

theorem Respelled.commit (h : s.Respelled t) {a b : Buffer} (hb : a.Respelled b) :
    Agree PatchResult.Respelled (s.commit (.ofTexts reader texts) a)
      (t.commit (.ofTexts reader texts) b) := by
  have hanalyze := analyze_respelled reader hb.path b.text
  unfold Tree.commit
  rw [hb.edits, hb.text]
  split
  · exact ⟨.ok ⟨hb.path, rfl, hb.file.text⟩, h⟩
  · simp only [Project.ofTexts]
    generalize analyze reader a.path b.text = x at hanalyze
    generalize analyze reader b.path b.text = y at hanalyze
    cases hanalyze with
    | error he => exact ⟨.error (.wouldCorrupt hb.path he), h⟩
    | ok hsource =>
      refine ⟨.ok ⟨hb.path, rfl, rfl⟩, PathMap.Respelled.insert h hb.path ?_⟩
      exact ⟨hb.file.loaded, rfl, hsource, by simp only [hb.file.history]⟩

theorem Respelled.apply (h : s.Respelled t) {plan plan' : EditPlan} (hplan : plan.Respelled plan') :
    Agree PatchResult.Respelled (s.apply (.ofTexts reader texts) plan)
      (t.apply (.ofTexts reader texts) plan') := by
  cases hplan with
  | noOp hp =>
    obtain ⟨x, y, s', t', ha, hb, htext, htree⟩ | ⟨e, f, s', t', ha, hb, he, htree⟩ :=
      (h.text reader texts hp).cases
    · simp only [Tree.apply, ha, hb]
      exact ⟨.ok ⟨hp, rfl, htext⟩, htree⟩
    · simp only [Tree.apply, ha, hb]
      exact ⟨.error he, htree⟩
  | @insert p q offset text rationale hp =>
    obtain ⟨x, y, s', t', ha, hb, hbuffer, htree⟩ | ⟨e, f, s', t', ha, hb, he, htree⟩ :=
      (h.edit reader texts hp).cases
    · simp only [Tree.apply, ha, hb]
      have hinsert := hbuffer.insert offset text rationale
      generalize x.insert offset text rationale = a at hinsert
      generalize y.insert offset text rationale = b at hinsert
      cases hinsert with
      | ok hnext => exact htree.commit reader texts hnext
      | error he => exact ⟨.error he, htree⟩
    · simp only [Tree.apply, ha, hb]
      exact ⟨.error he, htree⟩

theorem Respelled.holds (h : s.Respelled t) (hp : p.same q = true) :
    s.holds (.ofTexts reader texts) p = t.holds (.ofTexts reader texts) q := by
  have hfind := PathMap.Respelled.find? h hp
  simp only [Tree.holds, PathMap.contains, Project.ofTexts, View.ofTexts,
    PathMap.find?_congr hp texts]
  generalize s.files.find? p = found at hfind
  generalize t.files.find? q = found' at hfind
  cases hfind <;> rfl

end Tree

end Operations

namespace Session

inductive Reply where
  | found (answer : Bool)
  | text (answer : Except EditError String)
  | source (answer : Except EditError SourceFile)
  | patched (answer : Except EditError PatchResult)
  | opened (answer : Except EditError Buffer)
  /-- The buffer after an edit, where one is open. -/
  | edited (answer : Option (Except EditError Buffer))
  | committed (answer : Option (Except EditError PatchResult))
  | dropped

def reply (project : Project) (session : Session) : Command → Reply
  | .holds path => .found (session.tree.holds project path)
  | .text path => .text (session.tree.text project path).1
  | .source path => .source (session.tree.source project path).1
  | .apply plan => .patched (session.tree.apply project plan).1
  | .edit path => .opened (session.tree.edit project path).1
  | .insert offset piece rationale =>
    .edited (session.buffer.map fun buffer => buffer.insert offset piece rationale)
  | .replaceAll text rationale =>
    .edited (session.buffer.map fun buffer => .ok (buffer.replaceAll text rationale))
  | .commit => .committed (session.buffer.map fun buffer => (session.tree.commit project buffer).1)
  | .drop => .dropped

def replies (reader : TreeReader) : Session → List Action → List Reply
  | _, [] => []
  | session, action :: rest =>
    session.reply ⟨action.view, reader⟩ action.command :: replies reader (session.act reader action) rest

/-- One command under paths in other spellings. -/
inductive Command.Respelled : Command → Command → Prop
  | holds {p q : Path} : p.same q = true → Command.Respelled (.holds p) (.holds q)
  | text {p q : Path} : p.same q = true → Command.Respelled (.text p) (.text q)
  | source {p q : Path} : p.same q = true → Command.Respelled (.source p) (.source q)
  | apply {plan plan' : EditPlan} : plan.Respelled plan' →
    Command.Respelled (.apply plan) (.apply plan')
  | edit {p q : Path} : p.same q = true → Command.Respelled (.edit p) (.edit q)
  | insert (offset : Nat) (piece rationale : String) :
    Command.Respelled (.insert offset piece rationale) (.insert offset piece rationale)
  | replaceAll (text rationale : String) :
    Command.Respelled (.replaceAll text rationale) (.replaceAll text rationale)
  | commit : Command.Respelled .commit .commit
  | drop : Command.Respelled .drop .drop

/-- One action under paths in other spellings, where the same texts are found. -/
structure Action.Respelled (a b : Action) : Prop where
  view : a.view = b.view
  texts : ∃ texts, a.view = .ofTexts texts
  command : a.command.Respelled b.command

inductive Reply.Respelled : Reply → Reply → Prop
  | found (answer : Bool) : Reply.Respelled (.found answer) (.found answer)
  | text {a b : Except EditError String} : Paired EditError.Respelled Eq a b →
    Reply.Respelled (.text a) (.text b)
  | source {a b : Except EditError SourceFile} :
    Paired EditError.Respelled SourceFile.Respelled a b → Reply.Respelled (.source a) (.source b)
  | patched {a b : Except EditError PatchResult} :
    Paired EditError.Respelled PatchResult.Respelled a b →
    Reply.Respelled (.patched a) (.patched b)
  | opened {a b : Except EditError Buffer} : Paired EditError.Respelled Buffer.Respelled a b →
    Reply.Respelled (.opened a) (.opened b)
  | edited {a b : Option (Except EditError Buffer)} :
    Option.Rel (Paired EditError.Respelled Buffer.Respelled) a b →
    Reply.Respelled (.edited a) (.edited b)
  | committed {a b : Option (Except EditError PatchResult)} :
    Option.Rel (Paired EditError.Respelled PatchResult.Respelled) a b →
    Reply.Respelled (.committed a) (.committed b)
  | dropped : Reply.Respelled .dropped .dropped

structure Respelled (s t : Session) : Prop where
  tree : s.tree.Respelled t.tree
  buffer : Option.Rel Buffer.Respelled s.buffer t.buffer

variable {s t : Session} (reader : TreeReader) (texts : PathMap String)

theorem rel_map {α β : Type} {R : α → α → Prop} {S : β → β → Prop} {f g : α → β}
    (hfg : ∀ a b, R a b → S (f a) (g b)) {a b : Option α} (h : Option.Rel R a b) :
    Option.Rel S (a.map f) (b.map g) := by
  cases h with
  | some hr => exact .some (hfg _ _ hr)
  | none => exact .none

/-- Related commands are answered alike in related sessions. -/
theorem Respelled.reply (h : s.Respelled t) {c d : Command} (hc : c.Respelled d) :
    (s.reply (.ofTexts reader texts) c).Respelled (t.reply (.ofTexts reader texts) d) := by
  cases hc with
  | holds hp =>
    simp only [Session.reply, h.tree.holds reader texts hp]
    exact .found _
  | text hp => exact .text (h.tree.text reader texts hp).answer
  | source hp => exact .source (h.tree.source reader texts hp).answer
  | apply hplan => exact .patched (h.tree.apply reader texts hplan).answer
  | edit hp => exact .opened (h.tree.edit reader texts hp).answer
  | insert offset piece rationale =>
    exact .edited (rel_map (fun _ _ hb => hb.insert offset piece rationale) h.buffer)
  | replaceAll text rationale =>
    exact .edited (rel_map (fun _ _ hb => .ok (hb.replaceAll text rationale)) h.buffer)
  | commit =>
    refine .committed (rel_map (fun a b hb => ?_) h.buffer)
    exact (h.tree.commit reader texts hb).answer
  | drop => exact .dropped

/-- Related commands lead from related sessions to related ones. -/
theorem Respelled.step (h : s.Respelled t) {c d : Command} (hc : c.Respelled d) :
    (s.step (.ofTexts reader texts) c).Respelled (t.step (.ofTexts reader texts) d) := by
  cases hc with
  | holds hp => exact ⟨h.tree, .none⟩
  | text hp => exact ⟨(h.tree.text reader texts hp).tree, .none⟩
  | source hp => exact ⟨(h.tree.source reader texts hp).tree, .none⟩
  | apply hplan => exact ⟨(h.tree.apply reader texts hplan).tree, .none⟩
  | edit hp =>
    obtain ⟨x, y, s', t', ha, hb, hbuffer, htree⟩ | ⟨e, f, s', t', ha, hb, _, htree⟩ :=
      (h.tree.edit reader texts hp).cases
    · simp only [Session.step, ha, hb]
      exact ⟨htree, .some hbuffer⟩
    · simp only [Session.step, ha, hb]
      exact ⟨htree, .none⟩
  | insert offset piece rationale =>
    exact ⟨h.tree, rel_map (fun _ _ hb => hb.insertInto offset piece rationale) h.buffer⟩
  | replaceAll text rationale =>
    exact ⟨h.tree, rel_map (fun _ _ hb => hb.replaceAll text rationale) h.buffer⟩
  | commit =>
    have hbuffer := h.buffer
    simp only [Session.step]
    generalize s.buffer = a at hbuffer
    generalize t.buffer = b at hbuffer
    cases hbuffer with
    | some hb => exact ⟨(h.tree.commit reader texts hb).tree, .none⟩
    | none => exact h
  | drop => exact ⟨h.tree, .none⟩

theorem respelled_start : start.Respelled start := ⟨.nil, .none⟩

/-- Runs of related actions are answered alike and end in related sessions. -/
theorem Respelled.run (h : s.Respelled t) {actions actions' : List Action}
    (hactions : List.Forall₂ Action.Respelled actions actions') :
    List.Forall₂ Reply.Respelled (s.replies reader actions) (t.replies reader actions') ∧
      (s.run reader actions).Respelled (t.run reader actions') := by
  induction hactions generalizing s t with
  | nil => exact ⟨.nil, h⟩
  | @cons a b as bs hab _ ih =>
    obtain ⟨view, c⟩ := a
    obtain ⟨view', d⟩ := b
    obtain ⟨hview, ⟨texts, htexts⟩, hcommand⟩ := hab
    simp only at hview htexts hcommand
    subst hview htexts
    have hreply := h.reply reader texts hcommand
    obtain ⟨hreplies, hrun⟩ := ih (h.step reader texts hcommand)
    exact ⟨.cons hreply hreplies, hrun⟩

end Session

/-- The same change of a file, told of a path in another spelling. -/
structure FileChange.Respelled (c d : FileChange) : Prop where
  path : c.path.same d.path = true
  rest : d = { c with path := d.path }

theorem StagedFile.Respelled.isChanged {f g : StagedFile} (h : f.Respelled g) :
    f.isChanged = g.isChanged := by
  simp only [StagedFile.isChanged, h.loaded, h.text]

theorem StagedFile.Respelled.patch {f g : StagedFile} (h : f.Respelled g) (path : Path) :
    g.patch path = f.patch path := by
  unfold StagedFile.patch
  rw [h.loaded, h.text]

namespace Tree

variable {s t : Tree}

theorem Respelled.changed (h : s.Respelled t) :
    List.Forall₂ (fun a b => a.1.same b.1 = true ∧ a.2.Respelled b.2) s.changed t.changed :=
  List.rel_filter (fun _ _ hentry => by simp only [hentry.2.isChanged]) h

theorem Respelled.history (h : s.Respelled t) {p q : Path} (hp : p.same q = true) :
    s.history p = t.history q := by
  have hfind := PathMap.Respelled.find? h hp
  unfold Tree.history
  generalize s.files.find? p = found at hfind
  generalize t.files.find? q = found' at hfind
  cases hfind with
  | some hfile => exact hfile.history
  | none => rfl

theorem Respelled.staged (h : s.Respelled t) :
    List.Forall₂ (fun a b => a.1.same b.1 = true ∧ a.2 = b.2) s.staged t.staged := by
  unfold Tree.staged
  rw [List.forall₂_map_left_iff, List.forall₂_map_right_iff]
  exact h.changed.imp fun _ _ hentry => ⟨hentry.1, hentry.2.text⟩

theorem Respelled.changes (h : s.Respelled t) :
    List.Forall₂ FileChange.Respelled s.changes t.changes := by
  unfold Tree.changes
  rw [List.forall₂_map_left_iff, List.forall₂_map_right_iff]
  refine h.changed.imp fun a b hentry => ⟨hentry.1, ?_⟩
  simp only [FileChange.ofStaged, hentry.2.loaded, hentry.2.text, hentry.2.history]

/-- The patch is made from the same texts under the other names. -/
theorem Respelled.patch (h : s.Respelled t) :
    t.patch = String.join (List.zipWith (fun a b => a.2.patch b.1) s.changed t.changed) := by
  unfold Tree.patch
  refine congrArg String.join ?_
  have hchanged := h.changed
  generalize s.changed = entries at hchanged
  generalize t.changed = entries' at hchanged
  induction hchanged with
  | nil => rfl
  | cons hentry _ ih =>
    rw [List.map_cons, List.zipWith_cons_cons, ih, ← hentry.2.patch]

end Tree

namespace Session

/-- Two runs that differ in the spelling of paths differ in nothing else. -/
structure SpellingBlind (reader : TreeReader) (actions actions' : List Action) : Prop where
  /-- Each answer is the same: a result with a result, a failure with one of its kind. -/
  replies : List.Forall₂ Reply.Respelled (start.replies reader actions)
    (start.replies reader actions')
  /-- So are the staged files with their texts, trees and logs, and an open buffer. -/
  session : (start.run reader actions).Respelled (start.run reader actions')
  /-- So is the language that is read. -/
  language : ∀ p q : Path, p.same q = true → Language.ofPath? p = Language.ofPath? q
  history : ∀ p q : Path, p.same q = true →
    (start.run reader actions).tree.history p = (start.run reader actions').tree.history q
  staged : List.Forall₂ (fun a b => a.1.same b.1 = true ∧ a.2 = b.2)
    (start.run reader actions).tree.staged (start.run reader actions').tree.staged
  changes : List.Forall₂ FileChange.Respelled
    (start.run reader actions).tree.changes (start.run reader actions').tree.changes
  patch : (start.run reader actions').tree.patch =
    String.join (List.zipWith (fun a b => a.2.patch b.1)
      (start.run reader actions).tree.changed (start.run reader actions').tree.changed)
  /-- The keys follow one another in the order of their components, and no two are the same. -/
  keys : (start.run reader actions).tree.files.entries.Pairwise fun a b =>
    a.1.compare b.1 = .lt ∧ a.1.same b.1 = false

/-- How paths are spelled makes no difference to a run on given texts. The order of the keys is not
the one of their spellings. -/
theorem spellingBlind_run (reader : TreeReader) {actions actions' : List Action}
    (h : List.Forall₂ Action.Respelled actions actions') :
    SpellingBlind reader actions actions' ∧
      ∃ p q : Path, p.compare q = .lt ∧ q.spelling < p.spelling := by
  obtain ⟨hreplies, hrun⟩ := respelled_start.run reader h
  have hordered : (start.run reader actions).tree.files.Ordered :=
    run_keeps (P := fun tree => tree.files.Ordered) Tree.ordered_move sound_start
      PathMap.ordered_empty actions
  have hkeys := List.Pairwise.imp (fun hlt => And.intro hlt (Path.same_eq_false_of_lt hlt)) hordered
  refine ⟨⟨hreplies, hrun, fun p q hp => Language.ofPath?_congr hp,
    fun p q hp => hrun.tree.history hp, hrun.tree.staged, hrun.tree.changes, hrun.tree.patch,
    hkeys⟩, ⟨"a/b"⟩, ⟨"a b"⟩, by decide +kernel, by decide +kernel⟩

def docsEdits (path : Path) : List Action :=
  let view := viewOfOne ⟨"docs/note.txt"⟩ "naïf"
  [⟨view, .holds path⟩, ⟨view, .edit path⟩, ⟨view, .insert 2 "é" "accent"⟩, ⟨view, .commit⟩,
    ⟨view, .apply (.insert path 3 "x" "inside")⟩]

theorem spellingBlind_docsEdits :
    List.Forall₂ Action.Respelled (docsEdits ⟨"docs/note.txt"⟩) (docsEdits ⟨"docs//./note.txt/"⟩) ∧
      SpellingBlind (fun _ _ => none) (docsEdits ⟨"docs/note.txt"⟩)
        (docsEdits ⟨"docs//./note.txt/"⟩) := by
  have hsame : (Path.mk "docs/note.txt").same ⟨"docs//./note.txt/"⟩ = true := by decide +kernel
  have haction : ∀ {c d : Command}, c.Respelled d → ∀ texts,
      Action.Respelled ⟨.ofTexts texts, c⟩ ⟨.ofTexts texts, d⟩ :=
    fun hc texts => ⟨rfl, ⟨texts, rfl⟩, hc⟩
  have hactions : List.Forall₂ Action.Respelled (docsEdits ⟨"docs/note.txt"⟩)
      (docsEdits ⟨"docs//./note.txt/"⟩) :=
    .cons (haction (.holds hsame) _) (.cons (haction (.edit hsame) _)
      (.cons (haction (.insert ..) _) (.cons (haction .commit _)
        (.cons (haction (.apply (.insert hsame)) _) .nil))))
  exact ⟨hactions, (spellingBlind_run (fun _ _ => none) hactions).1⟩

end Session

end Codemod
