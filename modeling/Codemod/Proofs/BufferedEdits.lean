import Codemod.Proofs.Freshness
import Codemod.Proofs.Independence

/-!
Insertions through one buffer and one by one.

A buffer takes any insertion at a place of its text and has the text read once, when it is
committed. A plan for every insertion has it read each time. Where each of these texts is accepted,
the plans lead to the staging area that a commit of the buffer leaves: that this holds of the
insertions made so far is what one more insertion keeps (`Tree.apply_commit`).
-/
namespace Codemod

namespace Text

/-- The offset is inside a character of the text. -/
def IsInside (s : String) (offset : Nat) : Prop :=
  ∃ front c back, s.toList = front ++ c :: back ∧ byteLength front < offset ∧
    offset < byteLength front + c.utf8Size

theorem cut?_eq_none {cs : List Char} {n : Nat} (h : cut? cs n = none) :
    byteLength cs < n ∨ ∃ front c back, cs = front ++ c :: back ∧ byteLength front < n ∧
      n < byteLength front + c.utf8Size := by
  induction cs generalizing n with
  | nil =>
    cases n with
    | zero => simp at h
    | succ n => exact .inl (Nat.succ_pos n)
  | cons c cs ih =>
    cases n with
    | zero => simp at h
    | succ n =>
      rw [cut?] at h
      split at h
      · rcases ih (Option.map_eq_none_iff.1 h) with hpast | ⟨front, d, back, rfl, hlt, hgt⟩
        · exact .inl (by rw [byteLength_cons]; omega)
        · exact .inr ⟨c :: front, d, back, rfl, by rw [byteLength_cons]; omega,
            by rw [byteLength_cons]; omega⟩
      · exact .inr ⟨[], c, cs, rfl, Nat.succ_pos n, by rw [byteLength_nil]; omega⟩

/-- An insertion fails past the end of the text and inside a character, and nowhere else. -/
theorem insertAt?_eq_none_iff {s piece : String} {offset : Nat} :
    insertAt? s offset piece = none ↔ size s < offset ∨ IsInside s offset := by
  rw [insertAt?, Option.map_eq_none_iff]
  refine ⟨cut?_eq_none, fun h => Option.eq_none_iff_forall_ne_some.2 ?_⟩
  rintro ⟨a, b⟩ hcut
  obtain ⟨hs, rfl⟩ := cut?_eq_some_iff.1 hcut
  rcases h with hpast | ⟨front, c, back, hparts, hlt, hgt⟩
  · rw [size, hs, byteLength_append] at hpast
    omega
  · obtain ⟨d, rfl, hd⟩ := exists_append_of_byteLength_le (hparts.symm.trans hs) (by omega)
    cases d with
    | nil => simp at hlt
    | cons e d =>
      obtain ⟨rfl, -⟩ := List.cons.inj hd
      rw [byteLength_append, byteLength_cons] at hgt
      omega

end Text

namespace Insertion

def plan (insertion : Insertion) (path : Path) : EditPlan :=
  .insert path insertion.offset insertion.piece insertion.rationale

def record (insertion : Insertion) : EditRecord :=
  ⟨insertion.offset, 0, insertion.piece, insertion.rationale⟩

/-- Of every insertion of a list, together with those before it. -/
def AtEach (P : List Insertion → Insertion → Prop) (insertions : List Insertion) : Prop :=
  ∀ before insertion behind, insertions = before ++ insertion :: behind → P before insertion

theorem atEach_nil (P : List Insertion → Insertion → Prop) : AtEach P [] :=
  fun before insertion behind h => by simp at h

theorem atEach_cons {P : List Insertion → Insertion → Prop} {insertion : Insertion}
    {rest : List Insertion} : AtEach P (insertion :: rest) ↔
      P [] insertion ∧ AtEach (fun before => P (insertion :: before)) rest := by
  constructor
  · intro h
    exact ⟨h [] insertion rest rfl,
      fun before other behind he => h (insertion :: before) other behind (by rw [he]; rfl)⟩
  · rintro ⟨hfirst, hrest⟩ before other behind he
    cases before with
    | nil =>
      obtain ⟨rfl, -⟩ := List.cons.inj he
      exact hfirst
    | cons first before =>
      obtain ⟨rfl, hbehind⟩ := List.cons.inj he
      exact hrest before other behind hbehind

def Fails (insertion : Insertion) (buffer : Buffer) : Prop :=
  ∃ error, ((BufferEdit.insert insertion).run buffer).1 = .error error

end Insertion

namespace Buffer

def ofFile (path : Path) (file : StagedFile) : Buffer := ⟨path, file, file.text, []⟩

@[simp] theorem ofFile_path (path : Path) (file : StagedFile) : (ofFile path file).path = path := rfl

/-- What several insertions leave of a buffer, each tried on what those before it left. -/
def after (buffer : Buffer) (insertions : List Insertion) : Buffer :=
  (BufferEdit.runAll buffer (insertions.map .insert)).2

/-- The text of the buffer is one that its path accepts. -/
def Accepted (reader : TreeReader) (buffer : Buffer) : Prop :=
  ∃ source, analyze reader buffer.path buffer.text = .ok source

variable {buffer : Buffer} {insertion : Insertion}

/-- One insertion into a buffer. -/
theorem run_insert (buffer : Buffer) (insertion : Insertion) :
    (BufferEdit.insert insertion).run buffer =
      match Text.insertAt? buffer.text insertion.offset insertion.piece with
      | some text => (.ok text, { buffer with text, edits := buffer.edits ++ [insertion.record] })
      | none => (.error (.offsetOutside buffer.path insertion.offset (Text.size buffer.text)),
          buffer) := by
  simp only [BufferEdit.run, insert]
  cases Text.insertAt? buffer.text insertion.offset insertion.piece <;> rfl

theorem fails_iff : insertion.Fails buffer ↔
    Text.insertAt? buffer.text insertion.offset insertion.piece = none := by
  rw [Insertion.Fails, run_insert]
  cases Text.insertAt? buffer.text insertion.offset insertion.piece <;> simp

@[simp] theorem after_nil (buffer : Buffer) : buffer.after [] = buffer := rfl

theorem after_cons (buffer : Buffer) (insertion : Insertion) (rest : List Insertion) :
    buffer.after (insertion :: rest) = (buffer.after [insertion]).after rest := rfl

theorem after_append (buffer : Buffer) (first rest : List Insertion) :
    buffer.after (first ++ rest) = (buffer.after first).after rest := by
  induction first generalizing buffer with
  | nil => rfl
  | cons insertion first ih => rw [List.cons_append, after_cons, ih, ← after_cons]

@[simp] theorem after_path (buffer : Buffer) (insertions : List Insertion) :
    (buffer.after insertions).path = buffer.path := BufferEdit.runAll_path _ buffer

/-- A buffer after an insertion that is made. -/
theorem after_of_some {text : String}
    (h : Text.insertAt? buffer.text insertion.offset insertion.piece = some text) :
    buffer.after [insertion] = { buffer with text, edits := buffer.edits ++ [insertion.record] } := by
  change ((BufferEdit.insert insertion).run buffer).2 = _
  rw [run_insert, h]

/-- A failure leaves the buffer and its records as they are. -/
theorem after_of_fails (h : insertion.Fails buffer) : buffer.after [insertion] = buffer := by
  change ((BufferEdit.insert insertion).run buffer).2 = _
  rw [run_insert, fails_iff.1 h]

/-- Nothing is recorded exactly where every insertion fails. -/
theorem edits_after_eq_nil_iff {insertions : List Insertion} :
    (buffer.after insertions).edits = [] ↔ buffer.edits = [] ∧
      Insertion.AtEach (fun before insertion => insertion.Fails (buffer.after before))
        insertions := by
  induction insertions generalizing buffer with
  | nil => simp [Insertion.atEach_nil]
  | cons insertion rest ih =>
    have hbefore : (fun before other => Insertion.Fails other (buffer.after (insertion :: before))) =
        fun before other => other.Fails ((buffer.after [insertion]).after before) := rfl
    rw [after_cons, ih, Insertion.atEach_cons, hbefore]
    by_cases hf : insertion.Fails buffer
    · simp [hf, after_of_fails hf]
    · obtain ⟨text, hi⟩ := Option.ne_none_iff_exists'.1 (mt fails_iff.2 hf)
      simp [hf, after_of_some hi]

end Buffer

namespace Tree

variable {project : Project} {tree : Tree} {buffer : Buffer}

/-- The staging area after a plan for each insertion, one after another. -/
def applyEach (project : Project) (path : Path) (tree : Tree) (insertions : List Insertion) : Tree :=
  insertions.foldl (fun tree insertion => (tree.apply project (insertion.plan path)).2) tree

theorem Holds.after (h : Holds tree buffer) (insertions : List Insertion) :
    Holds tree (buffer.after insertions) := by
  induction insertions generalizing buffer with
  | nil => exact h
  | cons insertion rest ih =>
    rw [Buffer.after_cons]
    refine ih ?_
    cases hi : Text.insertAt? buffer.text insertion.offset insertion.piece with
    | none => rwa [Buffer.after_of_fails (Buffer.fails_iff.2 hi)]
    | some text =>
      have hinto := h.insertInto insertion.offset insertion.piece insertion.rationale
      rw [Session.insertInto, Buffer.insert, hi] at hinto
      rwa [Buffer.after_of_some hi]

/-- What a commit leaves when something is recorded and the text is accepted. -/
theorem commit_of_accepted {source : Option SourceFile} (he : buffer.edits ≠ [])
    (ha : analyze project.reader buffer.path buffer.text = .ok source) :
    tree.commit project buffer = (.ok ⟨buffer.path, true, buffer.text⟩,
      tree.put buffer.path (edited buffer.file buffer.text source buffer.edits)) := by
  obtain ⟨hnil, _⟩ | ⟨_, _, herror, _⟩ | ⟨_, _, hok, hc⟩ := commit_cases project tree buffer
  · exact absurd hnil he
  · simp [ha] at herror
  · rw [ha] at hok
    cases hok
    exact hc

/-- A commit asks for the last text only, and for none where nothing is recorded. -/
theorem commit_eq_ok_iff : (∃ result, (tree.commit project buffer).1 = .ok result) ↔
    buffer.edits = [] ∨ buffer.Accepted project.reader := by
  obtain ⟨he, hc⟩ | ⟨he, error, ha, hc⟩ | ⟨source, he, ha, hc⟩ := commit_cases project tree buffer
  · simp [hc, he]
  · simp [hc, he, Buffer.Accepted, ha]
  · simp [hc, he, Buffer.Accepted, ha]

/-- The file that a commit stages has the text of the buffer, and more edits of it come to more
edits of the file that the buffer was opened on. -/
theorem exists_committed (h : Holds tree buffer)
    (ha : buffer.edits ≠ [] → buffer.Accepted project.reader) :
    ∃ file, (tree.commit project buffer).2.files.find? buffer.path = some file ∧
      file.text = buffer.text ∧ ∀ text source more,
        (tree.commit project buffer).2.put buffer.path (edited file text source more) =
          tree.put buffer.path (edited buffer.file text source (buffer.edits ++ more)) := by
  by_cases he : buffer.edits = []
  · have hc : (tree.commit project buffer).2 = tree := by simp [commit, he]
    have htext : buffer.file.text = buffer.text := by
      have hreplays := h.replays
      rw [he] at hreplays
      exact Option.some.inj hreplays
    rw [hc]
    exact ⟨buffer.file, h.staged, htext, fun text source more => by simp [he]⟩
  · obtain ⟨source, hsource⟩ := ha he
    rw [commit_of_accepted he hsource]
    refine ⟨_, PathMap.find?_insert_self .., rfl, fun text source more => ?_⟩
    rw [put_put]
    simp [edited]

/-- A plan for one more insertion, behind a commit of the buffer, comes to a commit of the buffer
with that insertion. -/
theorem apply_commit (h : Holds tree buffer)
    (ha : buffer.edits ≠ [] → buffer.Accepted project.reader) (insertion : Insertion)
    (hnext : ¬ insertion.Fails buffer → (buffer.after [insertion]).Accepted project.reader) :
    ((tree.commit project buffer).2.apply project (insertion.plan buffer.path)).2 =
      (tree.commit project (buffer.after [insertion])).2 := by
  obtain ⟨file, hfile, htext, hput⟩ := exists_committed h ha
  rw [Insertion.plan, apply_insert hfile, htext]
  cases hi : Text.insertAt? buffer.text insertion.offset insertion.piece with
  | none => rw [Buffer.after_of_fails (Buffer.fails_iff.2 hi)]
  | some text =>
    obtain ⟨source, hsource⟩ := hnext (by simp [Buffer.fails_iff, hi])
    rw [Buffer.after_of_some hi] at hsource ⊢
    rw [commit_of_accepted (by simp) hsource]
    simp only at hsource
    simp only [hsource]
    exact hput text source [insertion.record]

/-- Every insertion that is made leaves a text that is accepted. -/
def AcceptsEach (reader : TreeReader) (buffer : Buffer) (insertions : List Insertion) : Prop :=
  Insertion.AtEach (fun before insertion => ¬ insertion.Fails (buffer.after before) →
    (buffer.after (before ++ [insertion])).Accepted reader) insertions

/-- Plans for several insertions, behind a commit of the buffer, come to a commit of the buffer with
these insertions. -/
theorem applyEach_commit (h : Holds tree buffer)
    (ha : buffer.edits ≠ [] → buffer.Accepted project.reader) {insertions : List Insertion}
    (heach : AcceptsEach project.reader buffer insertions) :
    (tree.commit project buffer).2.applyEach project buffer.path insertions =
      (tree.commit project (buffer.after insertions)).2 := by
  induction insertions generalizing buffer with
  | nil => rfl
  | cons insertion rest ih =>
    obtain ⟨hfirst, hrest⟩ := Insertion.atEach_cons.1 heach
    have hnext : (buffer.after [insertion]).edits ≠ [] →
        (buffer.after [insertion]).Accepted project.reader := by
      by_cases hf : insertion.Fails buffer
      · rwa [Buffer.after_of_fails hf]
      · exact fun _ => hfirst hf
    calc (tree.commit project buffer).2.applyEach project buffer.path (insertion :: rest)
        = ((tree.commit project buffer).2.apply project (insertion.plan buffer.path)).2.applyEach
            project buffer.path rest := rfl
      _ = (tree.commit project (buffer.after [insertion])).2.applyEach project buffer.path rest := by
          rw [apply_commit h ha insertion hfirst]
      _ = (tree.commit project (buffer.after (insertion :: rest))).2 := by
          rw [← Buffer.after_path buffer [insertion]]
          exact ih (h.after [insertion]) hnext hrest

/-- A commit leaves a file under the path of the buffer. -/
theorem exists_find?_commit (project : Project) (h : Holds tree buffer) :
    ∃ file, (tree.commit project buffer).2.files.find? buffer.path = some file := by
  rw [find?_commit, if_pos (Path.same_refl _), h.staged]
  cases committed project.reader buffer <;> simp

theorem history_load (project : Project) (tree : Tree) (path : Path) :
    (tree.load project path).2.history path = tree.history path := by
  obtain ⟨_, _, hl⟩ | ⟨_, _, hl⟩ | ⟨_, _, hn, _, _, hl⟩ := load_cases project tree path
  · rw [hl]
  · rw [hl]
  · simp [hl, history, hn, PathMap.find?_insert_self, fileOf]

/-- Two staging areas of which a path and the changed files are told the same. -/
structure SameAnswers (project : Project) (path : Path) (s t : Tree) : Prop where
  text : (s.text project path).1 = (t.text project path).1
  source : (s.source project path).1 = (t.source project path).1
  history : s.history path = t.history path
  staged : s.staged = t.staged
  changes : s.changes = t.changes
  patch : s.patch = t.patch

theorem sameAnswers_load (project : Project) (tree : Tree) (path : Path) :
    SameAnswers project path (tree.load project path).2 tree := by
  have huntouched := untouched_load project tree path
  exact ⟨by rw [text_load], by rw [source_load], history_load project tree path,
    huntouched.staged, huntouched.changes, huntouched.patch⟩

/-- What insertions through a buffer come to, on a path that is loaded to `staged`, and how plans
for each of them compare. -/
structure BufferedAlike (project : Project) (tree staged : Tree) (opened : Buffer)
    (insertions : List Insertion) : Prop where
  opens : tree.edit project opened.path = (.ok opened, staged)
  /-- An insertion fails exactly past the end of the buffer that those before it left, and inside a
  character of it. The buffer is then as it was, with the edits recorded so far. -/
  refused : Insertion.AtEach (fun before insertion =>
    (insertion.Fails (opened.after before) ↔
      Text.size (opened.after before).text < insertion.offset ∨
        Text.IsInside (opened.after before).text insertion.offset) ∧
    (insertion.Fails (opened.after before) →
      opened.after (before ++ [insertion]) = opened.after before)) insertions
  /-- The commit asks for the last text only, and for none where nothing was inserted. -/
  committed : (∃ result, (staged.commit project (opened.after insertions)).1 = .ok result) ↔
    Insertion.AtEach (fun before insertion => insertion.Fails (opened.after before)) insertions ∨
      (opened.after insertions).Accepted project.reader
  /-- Where every text in between is accepted, plans for each insertion have the same effect. -/
  agrees : AcceptsEach project.reader opened insertions →
    SameAnswers project opened.path (staged.commit project (opened.after insertions)).2
      (tree.applyEach project opened.path insertions)
  /-- They even leave the same staging area, where there is an insertion at all to load the path. -/
  same : AcceptsEach project.reader opened insertions → insertions ≠ [] →
    tree.applyEach project opened.path insertions =
      (staged.commit project (opened.after insertions)).2

/-- On a path that can be loaded, insertions through a buffer and one by one agree. -/
theorem bufferedAlike {tree staged : Tree} {path : Path} {file : StagedFile}
    (h : tree.load project path = (.ok file, staged)) (insertions : List Insertion) :
    BufferedAlike project tree staged (.ofFile path file) insertions := by
  have hedit : tree.edit project path = (.ok (.ofFile path file), staged) := by
    simp [edit, h, Buffer.ofFile]
  have hstaged : (tree.load project path).2 = staged := by rw [h]
  have hholds := holds_of_edit hedit
  have hsame : AcceptsEach project.reader (.ofFile path file) insertions → insertions ≠ [] →
      tree.applyEach project path insertions =
        (staged.commit project ((Buffer.ofFile path file).after insertions)).2 := by
    intro heach hne
    refine Eq.trans ?_ (applyEach_commit hholds (fun hnil => absurd rfl hnil) heach)
    obtain ⟨insertion, rest, rfl⟩ := List.exists_cons_of_ne_nil hne
    have hload := apply_load project tree (insertion.plan path)
    rw [Insertion.plan, EditPlan.target, hstaged] at hload
    exact congrArg (fun result => result.2.applyEach project path rest) hload.symm
  refine ⟨hedit, ?_, ?_, ?_, hsame⟩
  · intro before insertion behind _
    refine ⟨Buffer.fails_iff.trans Text.insertAt?_eq_none_iff, fun hf => ?_⟩
    rw [Buffer.after_append, Buffer.after_of_fails hf]
  · have hopened : (Buffer.ofFile path file).edits = [] := rfl
    rw [commit_eq_ok_iff, Buffer.edits_after_eq_nil_iff, and_iff_right hopened]
  · intro heach
    have hloaded : ((tree.applyEach project path insertions).load project path).2 =
        (staged.commit project ((Buffer.ofFile path file).after insertions)).2 := by
      by_cases hne : insertions = []
      · subst hne
        exact hstaged
      · obtain ⟨last, hlast⟩ := exists_find?_commit project (hholds.after insertions)
        rw [Buffer.after_path, Buffer.ofFile_path] at hlast
        rw [hsame heach hne, load_of_staged hlast]
    exact hloaded ▸ sameAnswers_load project _ path

def dataInsertions : List Insertion :=
  [⟨1, "\"a\":", "name"⟩, ⟨5, "1", "value"⟩, ⟨9, "]", "end"⟩]

def memberInsertions : List Insertion :=
  [⟨1, "\"a\":1", "first"⟩, ⟨6, ",\"b\":2", "second"⟩, ⟨20, "]", "end"⟩]

theorem analyze_data {text : String} {value : Json} (h : Json.read text = .ok value) :
    analyze noteAndData.reader ⟨"data.json"⟩ text = .ok none := by
  have hlanguage : Language.ofPath? ⟨"data.json"⟩ = none := by decide +kernel
  rw [analyze_eq_ok_iff, hlanguage]
  exact ⟨rfl, fun _ => ⟨value, h⟩⟩

theorem acceptsEach_memberInsertions : AcceptsEach noteAndData.reader
    (.ofFile ⟨"data.json"⟩ (fileOf "\x7b\x7d" none)) memberInsertions := by
  have hfails : (⟨20, "]", "end"⟩ : Insertion).Fails
      ((Buffer.ofFile ⟨"data.json"⟩ (fileOf "\x7b\x7d" none)).after
        (memberInsertions.take 2)) := Buffer.fails_iff.2 rfl
  refine Insertion.atEach_cons.2 ⟨fun _ => ⟨none, ?_⟩, Insertion.atEach_cons.2
    ⟨fun _ => ⟨none, ?_⟩, Insertion.atEach_cons.2
      ⟨fun hmade => absurd hfails hmade, Insertion.atEach_nil _⟩⟩⟩
  · exact (analyze_data rfl : analyze _ _ "\x7b\"a\":1\x7d" = _)
  · exact (analyze_data rfl : analyze _ _ "\x7b\"a\":1,\"b\":2\x7d" = _)

theorem bufferedAlike_dataInsertions : ∃ file staged,
    Tree.empty.load noteAndData ⟨"data.json"⟩ = (.ok file, staged) ∧
      BufferedAlike noteAndData .empty staged (.ofFile ⟨"data.json"⟩ file) dataInsertions ∧
      AcceptsEach noteAndData.reader (.ofFile ⟨"data.json"⟩ file) memberInsertions ∧
      BufferedAlike noteAndData .empty staged (.ofFile ⟨"data.json"⟩ file) memberInsertions ∧
      Tree.empty.applyEach noteAndData ⟨"data.json"⟩ memberInsertions =
        (staged.commit noteAndData
          ((Buffer.ofFile ⟨"data.json"⟩ file).after memberInsertions)).2 := by
  have hread : noteAndData.view.read ⟨"data.json"⟩ = .ok (some "\x7b\x7d") :=
    congrArg Except.ok (PathMap.find?_insert_self ..)
  have hok : analyze noteAndData.reader ⟨"data.json"⟩ "\x7b\x7d" = .ok none :=
    analyze_data rfl
  have h : Tree.empty.load noteAndData ⟨"data.json"⟩ = (.ok (fileOf "\x7b\x7d" none),
      ⟨PathMap.empty.insert ⟨"data.json"⟩ (fileOf "\x7b\x7d" none)⟩) := by
    simp [load, empty, hread, StagedFile.ofText, hok, Except.map, fileOf]
  have hmembers := bufferedAlike h memberInsertions
  exact ⟨_, _, h, bufferedAlike h dataInsertions, acceptsEach_memberInsertions, hmembers,
    hmembers.same acceptsEach_memberInsertions (by simp [memberInsertions])⟩

end Tree

end Codemod
