import Codemod.Proofs.StagingRun

/-!
Staged texts and their trees.

Whatever is done to a staging area, each staged text is one that its path accepts, and the tree
kept with it is the tree of that very text. The reader of trees is arbitrary. A commit may spell
the path differently from the load, so the tree is the one found under some spelling; which
language is read depends on the components alone.
-/
namespace Codemod

namespace Language

theorem ofPath?_congr {p q : Path} (h : p.same q = true) : ofPath? p = ofPath? q := by
  simp [ofPath?, Path.extension_congr h]

end Language

/-- The outcome of an analysis that succeeds: a tree for a source file, none for any other. -/
theorem analyze_eq_ok_iff {reader : TreeReader} {path : Path} {text : String}
    {source : Option SourceFile} :
    analyze reader path text = .ok source ↔
      match Language.ofPath? path with
      | some language =>
        ∃ root, reader language text = some root ∧ source = some ⟨path, language, text, root⟩
      | none => source = none ∧
        (path.extension = some "json" → ∃ value, Json.read text = .ok value) := by
  unfold analyze
  cases Language.ofPath? path with
  | some language =>
    cases hr : reader language text with
    | none => simp [SourceFile.readAs, hr, Except.map]
    | some root => simp [SourceFile.readAs, hr, Except.map, eq_comm]
  | none =>
    by_cases he : path.extension = some "json"
    · cases Json.read text with
      | error fault => simp [he]
      | ok value => simp [he, eq_comm]
    · simp [he, eq_comm]

/-- Whether a text is accepted depends on the components of the path. -/
theorem exists_analyze_congr {reader : TreeReader} {p q : Path} {text : String}
    {source : Option SourceFile} (h : p.same q = true)
    (ha : analyze reader p text = .ok source) : ∃ source, analyze reader q text = .ok source := by
  rw [analyze_eq_ok_iff, Language.ofPath?_congr h] at ha
  cases hl : Language.ofPath? q with
  | some language =>
    simp only [hl] at ha
    obtain ⟨root, hr, _⟩ := ha
    exact ⟨some ⟨q, language, text, root⟩, analyze_eq_ok_iff.2 (by simp [hl, hr])⟩
  | none =>
    simp only [hl, Path.extension_congr h] at ha
    exact ⟨none, analyze_eq_ok_iff.2 (by simpa [hl] using ha.2)⟩

/-- A file under a key whose tree is up to date. -/
structure StagedFile.Fresh (reader : TreeReader) (key : Path) (file : StagedFile) : Prop where
  /-- The text is one that its path accepts. -/
  accepted : ∃ source, analyze reader key file.text = .ok source
  /-- The tree is the one found for the text under some spelling of the path. -/
  analyzed : ∃ path, path.same key = true ∧ analyze reader path file.text = .ok file.source
  /-- Exactly the files of no source language have no tree. -/
  source_eq_none_iff : file.source = none ↔ Language.ofPath? key = none
  /-- The tree and the text that are kept together belong together. -/
  of_source : ∀ source, file.source = some source →
    source.text = file.text ∧ source.path.same key = true ∧
      Language.ofPath? key = some source.language ∧
      reader source.language file.text = some source.root

theorem StagedFile.fresh_of_analyze {reader : TreeReader} {path key : Path} {file : StagedFile}
    (h : path.same key = true) (ha : analyze reader path file.text = .ok file.source) :
    file.Fresh reader key := by
  refine ⟨exists_analyze_congr h ha, ⟨path, h, ha⟩, ?_, ?_⟩
  all_goals
    rw [analyze_eq_ok_iff, Language.ofPath?_congr h] at ha
    cases hl : Language.ofPath? key with
    | none => simp_all
    | some language =>
      simp only [hl] at ha
      obtain ⟨root, hr, hs⟩ := ha
      simp_all

namespace Tree

/-- Every staged file is up to date. -/
def Fresh (reader : TreeReader) (tree : Tree) : Prop :=
  ∀ entry ∈ tree.files.entries, entry.2.Fresh reader entry.1

theorem fresh_empty {reader : TreeReader} : empty.Fresh reader := by
  intro entry hmem
  cases hmem

theorem fresh_insert {reader : TreeReader} {tree : Tree} {path : Path} {file : StagedFile}
    (h : tree.Fresh reader) (ha : analyze reader path file.text = .ok file.source) :
    Fresh reader ⟨tree.files.insert path file⟩ := by
  intro entry hmem
  rcases PathMap.mem_insertEntry hmem with ⟨hsame, hfile⟩ | hold
  · rw [hfile]
    exact StagedFile.fresh_of_analyze (Path.same_symm hsame) ha
  · exact h entry hold

theorem fresh_move {project : Project} {tree tree' : Tree} (h : Move project tree tree')
    (hf : tree.Fresh project.reader) : tree'.Fresh project.reader := by
  cases h with
  | load _ _ ha => exact fresh_insert hf ha
  | commit _ _ _ ha => exact fresh_insert hf ha

/-- Files found by a path are up to date. -/
theorem Fresh.find? {reader : TreeReader} {tree : Tree} (h : tree.Fresh reader) {path : Path}
    {file : StagedFile} (hf : tree.files.find? path = some file) : file.Fresh reader path := by
  obtain ⟨key, hsame, hmem⟩ := PathMap.exists_mem_of_find hf
  obtain ⟨spelled, hs, ha⟩ := (h _ hmem).analyzed
  exact StagedFile.fresh_of_analyze (Path.same_trans hs hsame) ha

end Tree

/-- In every state that a session reaches, all staged files are up to date. -/
theorem Session.fresh_run (reader : TreeReader) (actions : List Session.Action) :
    (Session.start.run reader actions).tree.Fresh reader := by
  have hstart : Session.start.tree.Fresh reader := Tree.fresh_empty
  exact run_keeps (P := Tree.Fresh reader) Tree.fresh_move sound_start hstart actions

end Codemod
