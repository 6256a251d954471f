import Codemod.Proofs.EditLog
import Codemod.Proofs.PatchReading
import Codemod.Proofs.PathOrder

/-!
The patch of a staging area.

The patch has a section for each changed file, in the order of the paths, and the hunks of a section
make the staged text of the text that was loaded. In front of the hunks each section names the file
twice: by the paths of the file, and then by the names that the difference of any two texts has.
-/
namespace Codemod

open Diff

namespace StagedFile

def filePatch (path : Path) (file : StagedFile) : FilePatch where
  heading := ("diff --git a/" ++ path.spelling ++ " b/" ++ path.spelling ++ "\n").toList
  names := [("--- a/" ++ path.spelling ++ "\n").toList, ("+++ b/" ++ path.spelling ++ "\n").toList,
    "--- original\n".toList, "+++ modified\n".toList]
  hunks := between (Text.lines file.loaded.toList) (Text.lines file.text.toList)

variable {path : Path} {file : StagedFile}

theorem hunks_filePatch : (file.filePatch path).hunks =
    between (Text.lines file.loaded.toList) (Text.lines file.text.toList) := by
  unfold filePatch
  dsimp only

theorem flatten_printed : (file.filePatch path).printed.flatten = (file.patch path).toList := by
  have hmodified : "--- original\n+++ modified\n" = "--- original\n" ++ "+++ modified\n" := by
    decide +kernel
  have hold : "\n--- a/" = "\n" ++ "--- a/" := by decide +kernel
  have hnew : "\n+++ b/" = "\n" ++ "+++ b/" := by decide +kernel
  rw [FilePatch.flatten_printed]
  unfold patch unified filePatch
  simp only [hmodified, hold, hnew, String.toList_append, String.toList_ofList, List.flatten_cons,
    List.flatten_nil, List.append_assoc, List.append_nil]

/-- The hunks show lines of the two texts. -/
theorem describes_filePatch : ∀ hunk ∈ (file.filePatch path).hunks,
    hunk.Describes (Text.lines file.loaded.toList) (Text.lines file.text.toList) := by
  rw [hunks_filePatch]
  exact (applyHunks_between _ _).2

theorem whole_filePatch (h : '\n' ∉ path.spelling.toList) :
    ∀ line ∈ (file.filePatch path).heading :: (file.filePatch path).names,
      Text.IsWholeLine line := by
  intro line hline
  simp only [filePatch, List.mem_cons, List.not_mem_nil, or_false] at hline
  rcases hline with rfl | rfl | rfl | rfl | rfl
  · exact ⟨("diff --git a/" ++ path.spelling ++ " b/" ++ path.spelling).toList, by simp, by simp [h]⟩
  · exact ⟨("--- a/" ++ path.spelling).toList, by simp, by simp [h]⟩
  · exact ⟨("+++ b/" ++ path.spelling).toList, by simp, by simp [h]⟩
  · exact ⟨"--- original".toList, by decide, by decide⟩
  · exact ⟨"+++ modified".toList, by decide, by decide⟩

theorem isHeading_filePatch : isHeading (file.filePatch path).heading = true := by
  have hheading : (file.filePatch path).heading = "diff --git ".toList ++
      ("a/" ++ path.spelling ++ " b/" ++ path.spelling ++ "\n").toList := by
    simp [filePatch]
  rw [isHeading, hheading, begins_append]

/-- A name begins with one of two marks. -/
theorem head_of_mem_names {line : List Char} (h : line ∈ (file.filePatch path).names) :
    ∃ c cs, line = c :: cs ∧ c ∈ ['-', '+'] := by
  simp only [filePatch, List.mem_cons, List.not_mem_nil, or_false] at h
  rcases h with rfl | rfl | rfl | rfl
  · exact ⟨'-', ("-- a/" ++ path.spelling ++ "\n").toList, by simp, by decide⟩
  · exact ⟨'+', ("++ b/" ++ path.spelling ++ "\n").toList, by simp, by decide⟩
  · exact ⟨'-', "-- original\n".toList, by decide, by decide⟩
  · exact ⟨'+', "++ modified\n".toList, by decide, by decide⟩

theorem names_filePatch {line : List Char} (h : line ∈ (file.filePatch path).names) :
    isNote line = false ∧ isHeading line = false ∧ isHunkHeader line = false := by
  obtain ⟨c, cs, rfl, hc⟩ := head_of_mem_names h
  have hne : ∀ lead : String, lead.toList.head? ∉ [some '-', some '+'] → lead ≠ "" →
      begins lead (c :: cs) = false := by
    intro lead hhead hlead
    refine not_begins (fun he => hhead ?_) hlead cs
    rw [he]
    simpa using hc
  exact ⟨hne _ (by decide) (by decide), hne _ (by decide) (by decide),
    hne _ (by decide) (by decide)⟩

/-- The patch of a file with a name of one line is told from what is around it. -/
theorem wellFormed_filePatch (h : '\n' ∉ path.spelling.toList) :
    (file.filePatch path).WellFormed where
  whole := whole_filePatch h
  heading := isHeading_filePatch
  names := fun _ => names_filePatch
  lines := by
    intro hunk hh l hl
    rcases (describes_filePatch hunk hh).line_mem hl with hmem | hmem
    · exact Text.isLine_of_mem hmem
    · exact Text.isLine_of_mem hmem
  counts := fun hunk hh =>
    ⟨(describes_filePatch hunk hh).length_olds, (describes_filePatch hunk hh).length_news⟩

/-- The hunks of a file make its text of the text it was loaded with. -/
theorem apply_filePatch (path : Path) (file : StagedFile) :
    (file.filePatch path).apply file.loaded = some file.text := by
  rw [FilePatch.apply, hunks_filePatch, (applyHunks_between _ _).1, Option.map_some,
    Text.flatten_lines, String.ofList_toList]

/-- A changed file has a hunk. -/
theorem hunks_ne_nil (h : file.isChanged = true) : (file.filePatch path).hunks ≠ [] := by
  intro hn
  have happly := apply_filePatch path file
  rw [FilePatch.apply, hn, applyHunks, Option.map_some, Text.flatten_lines,
    String.ofList_toList] at happly
  have hne : file.loaded ≠ file.text := by simpa [isChanged] using h
  exact hne (Option.some.inj happly)

end StagedFile

namespace Tree

/-- The patch of a staging area is read back. -/
theorem readPatch_patch {tree : Tree}
    (h : ∀ entry ∈ tree.changed, '\n' ∉ entry.1.spelling.toList) :
    readPatch tree.patch =
      some (tree.changed.map fun (path, file) => file.filePatch path) := by
  apply readPatch_printed
  · intro patch hpatch
    obtain ⟨entry, hentry, rfl⟩ := List.mem_map.1 hpatch
    exact StagedFile.wellFormed_filePatch (h entry hentry)
  · rw [patch, String.toList_join]
    induction tree.changed with
    | nil => rfl
    | cons entry rest ih => simpa [StagedFile.flatten_printed] using ih

theorem ordered_move {project : Project} {tree tree' : Tree} (h : Move project tree tree')
    (ho : tree.files.Ordered) : tree'.files.Ordered := by
  cases h with
  | load => exact PathMap.ordered_insert ho _ _
  | commit => exact PathMap.ordered_insert ho _ _

/-- The changed files are the staged files whose text is another one. -/
theorem mem_changed_iff {tree : Tree} {path : Path} {file : StagedFile}
    (h : tree.files.find? path = some file) :
    (∃ key, key.same path = true ∧ (key, file) ∈ tree.changed) ↔ file.text ≠ file.loaded := by
  constructor
  · rintro ⟨key, -, hmem⟩
    have hne : file.loaded ≠ file.text := by
      simpa [StagedFile.isChanged] using (List.mem_filter.1 hmem).2
    exact hne.symm
  · intro hne
    obtain ⟨key, hs, hmem⟩ := PathMap.exists_mem_of_find h
    refine ⟨key, hs, List.mem_filter.2 ⟨hmem, ?_⟩⟩
    simpa [StagedFile.isChanged] using hne.symm

end Tree

namespace Session

/-- How a patch reads that is made after some actions. -/
structure ReadsBack (reader : TreeReader) (actions : List Action) (tree : Tree) : Prop where
  /-- There is a section for each changed file, with its two pairs of names and its hunks. -/
  sections : readPatch tree.patch =
    some (tree.changed.map fun (path, file) => file.filePatch path)
  /-- The changed files stand in the order of their paths. -/
  ordered : tree.changed.Pairwise fun a b => a.1.compare b.1 = .lt
  /-- They are the staged files whose text is not the one they were loaded with. -/
  changed : ∀ path file, tree.files.find? path = some file →
    ((∃ key, key.same path = true ∧ (key, file) ∈ tree.changed) ↔ file.text ≠ file.loaded)
  /-- The hunks of a section make the staged text of the text that was found first. -/
  applies : ∀ path file, (path, file) ∈ tree.changed →
    tree.files.find? path = some file ∧ FoundFirst reader actions path file.loaded ∧
      (file.filePatch path).hunks ≠ [] ∧
      (file.filePatch path).apply file.loaded = some file.text

/-- The patch of the staging area after any actions is read back, where no changed file has a line
break in its name. -/
theorem readsBack_run (reader : TreeReader) (actions : List Action)
    (h : ∀ entry ∈ (start.run reader actions).tree.changed, '\n' ∉ entry.1.spelling.toList) :
    ReadsBack reader actions (start.run reader actions).tree := by
  have hordered : (start.run reader actions).tree.files.Ordered :=
    run_keeps (P := fun tree => tree.files.Ordered) Tree.ordered_move sound_start
      PathMap.ordered_empty actions
  refine ⟨Tree.readPatch_patch h, List.Pairwise.filter _ hordered,
    fun path file hf => Tree.mem_changed_iff hf, ?_⟩
  intro path file hmem
  obtain ⟨hentry, hchanged⟩ := List.mem_filter.1 hmem
  have hfind := hordered.find?_of_mem hentry
  exact ⟨hfind, foundFirst_run reader actions path file hfind,
    StagedFile.hunks_ne_nil hchanged, file.apply_filePatch path⟩

def noteEdits : List Action :=
  let view := viewOfOne ⟨"note.txt"⟩ "one\ntwo"
  [⟨view, .edit ⟨"note.txt"⟩⟩, ⟨view, .replaceAll "one\n2\n" "number"⟩, ⟨view, .commit⟩]

theorem readsBack_noteEdits :
    (start.run (fun _ _ => none) noteEdits).tree.patch =
      "diff --git a/note.txt b/note.txt\n--- a/note.txt\n+++ b/note.txt\n" ++
        "--- original\n+++ modified\n@@ -1,2 +1,2 @@\n one\n-two\n" ++
        "\\ No newline at end of file\n+2\n" ∧
    ReadsBack (fun _ _ => none) noteEdits (start.run (fun _ _ => none) noteEdits).tree := by
  have hchanged : (start.run (fun _ _ => none) noteEdits).tree.changed.all
      (fun entry => !entry.1.spelling.toList.contains '\n') = true := by decide +kernel
  refine ⟨by decide +kernel, readsBack_run _ _ ?_⟩
  intro entry hentry hbreak
  have hno := List.all_eq_true.1 hchanged entry hentry
  simp [hbreak] at hno

end Session

end Codemod
