import Codemod.Module.Root
import Codemod.Proofs.Atomicity
import Codemod.Proofs.Freshness
import Codemod.Proofs.PathJoins

/-!
The texts of a project as a step finds them.

Of a staging area and the texts a project came with, only the present text of every path matters:
the staged one where there is one. Asking for a source file loads it, which no text notices, and
the answer is what the present text gives, up to the spelling of the path it was first asked by.
-/
namespace Codemod

/-- The texts of a project by path. -/
abbrev Texts := Path → Option String

namespace Texts

def put (texts : Texts) (path : Path) (text : String) : Texts :=
  fun q => if path.same q then some text else texts q

/-- The text of a path, if it has one that its path accepts. -/
def accepted (reader : TreeReader) (texts : Texts) (path : Path) : Except EditError String :=
  match texts path with
  | none => .error (.plan (.targetMissing (some path)))
  | some text =>
    match analyze reader path text with
    | .error error => .error (.source error)
    | .ok _ => .ok text

def source (reader : TreeReader) (texts : Texts) (path : Path) : Except EditError SourceFile :=
  match texts.accepted reader path with
  | .error error => .error error
  | .ok text =>
    match analyze reader path text with
    | .ok (some source) => .ok source
    | _ => .error (.source (.unsupportedLanguage path))

/-- Paths of one file have one text. -/
def Uniform (texts : Texts) : Prop := ∀ {p q : Path}, p.same q = true → texts p = texts q

theorem put_congr {p q : Path} (h : p.same q = true) (texts : Texts) (text : String) :
    texts.put p text = texts.put q text := by
  funext r
  simp [put, Path.same_comm p r, Path.same_comm q r, Path.same_congr h r]

/-- Writing a text that is there already changes nothing. -/
theorem put_self {texts : Texts} (h : texts.Uniform) {path : Path} {text : String}
    (ht : texts path = some text) : texts.put path text = texts := by
  funext q
  by_cases hs : path.same q
  · simp [put, hs, ← h hs, ht]
  · simp [put, hs]

theorem Uniform.put {texts : Texts} (h : texts.Uniform) (path : Path) (text : String) :
    (texts.put path text).Uniform := by
  intro p q hs
  simp [Texts.put, Path.same_congr hs path, h hs]

end Texts

namespace Texts

theorem accepted_eq_ok_iff {reader : TreeReader} {texts : Texts} {path : Path} {text : String} :
    texts.accepted reader path = .ok text ↔
      texts path = some text ∧ ∃ source, analyze reader path text = .ok source := by
  constructor
  · intro h
    unfold accepted at h
    split at h
    · cases h
    · rename_i found hf
      split at h
      · cases h
      · rename_i source ha
        obtain rfl := Except.ok.inj h
        exact ⟨hf, source, ha⟩
  · rintro ⟨ht, source, ha⟩
    simp [accepted, ht, ha]

/-- A source file has the text of its path and the tree of that text. -/
theorem source_eq_ok_iff {reader : TreeReader} {texts : Texts} {path : Path} {file : SourceFile} :
    texts.source reader path = .ok file ↔
      texts path = some file.text ∧ file.path = path ∧
        Language.ofPath? path = some file.language ∧
        reader file.language file.text = some file.root := by
  constructor
  · intro h
    unfold source at h
    split at h
    · cases h
    · rename_i text ht
      split at h
      · rename_i found ha
        obtain rfl := Except.ok.inj h
        rw [analyze_eq_ok_iff] at ha
        split at ha
        · rename_i language hl
          obtain ⟨root, hr, he⟩ := ha
          obtain rfl := Option.some.inj he
          exact ⟨(accepted_eq_ok_iff.1 ht).1, rfl, hl, hr⟩
        · cases ha.1
      · cases h
  · rintro ⟨ht, rfl, hl, hr⟩
    have ha : analyze reader file.path file.text = .ok (some file) := by
      rw [analyze_eq_ok_iff, hl]
      exact ⟨file.root, hr, rfl⟩
    simp [source, accepted_eq_ok_iff.2 ⟨ht, _, ha⟩, ha]

end Texts

/-- A project with given texts. -/
def Project.ofTexts (reader : TreeReader) (base : PathMap String) : Project :=
  ⟨View.ofTexts base, reader⟩

/-- A source file under another spelling of its path. -/
def SourceFile.spelledAs (file : SourceFile) (path : Path) : SourceFile := { file with path }

theorem analyze_spelledAs {reader : TreeReader} {p q : Path} {text : String}
    {source : Option SourceFile} (h : p.same q = true)
    (ha : analyze reader p text = .ok source) :
    analyze reader q text = .ok (source.map fun file => file.spelledAs q) := by
  rw [analyze_eq_ok_iff, Language.ofPath?_congr h] at ha
  rw [analyze_eq_ok_iff]
  cases hl : Language.ofPath? q with
  | some language =>
    simp only [hl] at ha
    obtain ⟨root, hr, rfl⟩ := ha
    exact ⟨root, hr, rfl⟩
  | none =>
    simp only [hl, Path.extension_congr h] at ha
    obtain ⟨rfl, hj⟩ := ha
    exact ⟨rfl, hj⟩

theorem analyze_error_congr {reader : TreeReader} {p q : Path} {text : String}
    {error : SourceError} (h : p.same q = true) (ha : analyze reader p text = .error error) :
    ∃ error, analyze reader q text = .error error := by
  cases hq : analyze reader q text with
  | error error => exact ⟨error, rfl⟩
  | ok source =>
    obtain ⟨source, hp⟩ := exists_analyze_congr (Path.same_symm h) hq
    rw [ha] at hp
    cases hp

namespace Tree

/-- The present texts: those that are staged, and what the project came with. -/
def texts (base : PathMap String) (tree : Tree) : Texts := fun path =>
  match tree.files.find? path with
  | some file => some file.text
  | none => base.find? path

variable {reader : TreeReader} {base : PathMap String} {tree : Tree}

theorem texts_uniform (base : PathMap String) (tree : Tree) : (tree.texts base).Uniform := by
  intro p q h
  simp [texts, PathMap.find?_congr h]

theorem texts_insert (base : PathMap String) (tree : Tree) (path : Path) (file : StagedFile) :
    texts base ⟨tree.files.insert path file⟩ = (tree.texts base).put path file.text := by
  funext q
  by_cases h : path.same q <;> simp [texts, Texts.put, PathMap.find?_insert, h]

/-- A staging area that differs only in what it has loaded. -/
structure Alike (reader : TreeReader) (base : PathMap String) (tree tree' : Tree) : Prop where
  moves : Moves (.ofTexts reader base) tree tree'
  fresh : tree'.Fresh reader
  texts : tree'.texts base = tree.texts base
  changed : tree'.changed = tree.changed

theorem Alike.refl (h : tree.Fresh reader) : Alike reader base tree tree :=
  ⟨.refl tree, h, rfl, rfl⟩

/-- Loading a path is not noticed. -/
theorem alike_load (base : PathMap String) (h : tree.Fresh reader) (path : Path) :
    Alike reader base tree (tree.load (.ofTexts reader base) path).2 := by
  obtain ⟨file, _, hl⟩ | ⟨_, error, hl⟩ | ⟨text, source, hn, hr, ha, hl⟩ :=
    load_cases (.ofTexts reader base) tree path
  · rw [hl]
    exact .refl h
  · rw [hl]
    exact .refl h
  · have hmoves := load_moves (.ofTexts reader base) tree path
    rw [hl] at hmoves ⊢
    have ht : tree.texts base path = some text := by
      have hb : base.find? path = some text := by
        simpa [Project.ofTexts, View.ofTexts] using hr
      simp [Tree.texts, hn, hb]
    refine ⟨hmoves, fresh_insert h ha, ?_, changed_insert hn text source⟩
    rw [texts_insert]
    exact Texts.put_self (texts_uniform base tree) ht

/-- What loading a path answers, by the present text. -/
theorem load_answer (base : PathMap String) (h : tree.Fresh reader) (path : Path) :
    (tree.load (.ofTexts reader base) path).1.map StagedFile.text =
      (tree.texts base).accepted reader path := by
  cases hf : tree.files.find? path with
  | some file =>
    obtain ⟨source, ha⟩ := (h.find? hf).accepted
    simp [load, hf, Texts.accepted, texts, ha, Except.map]
  | none =>
    cases hb : base.find? path with
    | none => simp [load, hf, Project.ofTexts, View.ofTexts, hb, Texts.accepted, texts, Except.map]
    | some text =>
      cases ha : analyze reader path text <;>
        simp [load, hf, Project.ofTexts, View.ofTexts, hb, StagedFile.ofText, ha, Texts.accepted,
          texts, Except.map]

/-- What asking for a source file answers: the source file of the present text, under some
spelling of the path. -/
theorem source_answer (base : PathMap String) (h : tree.Fresh reader) (path : Path) :
    match (tree.texts base).source reader path with
    | .error error => (tree.source (.ofTexts reader base) path).1 = .error error
    | .ok source => ∃ p, p.same path = true ∧
      (tree.source (.ofTexts reader base) path).1 = .ok (source.spelledAs p) := by
  have hload := load_answer base h path
  have hfresh := (alike_load base h path).fresh
  cases hl : tree.load (.ofTexts reader base) path with
  | mk answer tree' =>
    rw [hl] at hload hfresh
    simp only [Texts.source, ← hload]
    cases answer with
    | error error => simp [source, hl, Except.map]
    | ok file =>
      obtain ⟨spelled, hs, ha⟩ := (hfresh.find? (find?_of_load_ok hl)).analyzed
      simp only [Except.map, analyze_spelledAs hs ha]
      cases hsource : file.source with
      | none => simp [source, hl, hsource]
      | some found =>
        have hp := ((hfresh.find? (find?_of_load_ok hl)).of_source found hsource).2.1
        exact ⟨found.path, hp, by simp [source, hl, hsource, SourceFile.spelledAs]⟩

end Tree

end Codemod
