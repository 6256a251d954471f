import Codemod.CommandLine.FileSystem
import Codemod.Proofs.LexicalPaths

/-!
Places on a disk.

A path is followed by the same fold that collapses its components, so where it leads at all it leads
to the place of its normal form in the working directory. Writes only add directories, which leaves
every way open, and so a file is seen at each path to its place with the text that the place has.
-/
namespace Codemod

theorem Path.lead_of_absolute {p : Path} (h : p.isAbsolute = true) : p.lead = [.root] := by
  have hroot := mem_root_components.2 h
  have hnamed : Component.root ∉ named p.parts := fun hmem => isPlain_of_mem_parts hmem
  rw [components_eq, List.mem_append, or_iff_left hnamed] at hroot
  rcases p.lead_cases with hl | hl | hl
  · rw [hl] at hroot
    cases hroot
  · exact hl
  · rw [hl, List.mem_singleton] at hroot
    cases hroot

theorem PathMap.mem_keys_insertEntry {β : Type} {key : Path} (path : Path) (value : β)
    {entries : List (Path × β)} (h : key ∈ entries.map Prod.fst) :
    key ∈ (insertEntry path value entries).map Prod.fst := by
  induction entries with
  | nil => cases h
  | cons entry rest ih =>
    obtain ⟨other, old⟩ := entry
    rw [List.map_cons, List.mem_cons] at h
    rw [insertEntry]
    cases path.compare other with
    | lt => exact List.mem_cons_of_mem _ (List.mem_cons.2 h)
    | eq => exact List.mem_cons.2 h
    | gt => exact List.mem_cons.2 (h.imp_right ih)

namespace Disk

open Codemod.Path (Component pushNormal collapse named)

variable {disk mid next : Disk} {path : Path} {here last : List Component} {parts : List String}

/-- The path from the root to where a path leads. -/
def place (disk : Disk) (path : Path) : Path := (disk.working.join path).normalize

theorem foldl_step (here : List Component) (parts : List String) :
    parts.foldl step here = (named parts).foldl pushNormal here := by
  induction parts generalizing here with
  | nil => rfl
  | cons part rest ih =>
    rw [List.foldl_cons, ih, step]
    cases hidle : Path.isIdle part with
    | true => rw [Path.named_cons_of_idle hidle, if_pos rfl]
    | false => simp [named, hidle]

theorem eq_foldl_of_follow (h : disk.follow here parts = some last) :
    last = parts.foldl step here := by
  induction parts generalizing here with
  | nil => exact (Option.some.inj h).symm
  | cons part rest ih =>
    rw [follow] at h
    split at h
    · exact ih h
    · cases h

theorem pathTo_foldl_step (disk : Disk) (path : Path) :
    pathTo (path.parts.foldl step (disk.start path)) = disk.place path := by
  have hsplit := Path.components_eq path
  rw [foldl_step, pathTo, place, Path.normalize, start]
  cases habs : path.isAbsolute with
  | true =>
    rw [Path.join_of_isAbsolute habs, hsplit, Path.lead_of_absolute habs]
    rfl
  | false =>
    rw [if_neg Bool.false_ne_true, Path.collapse_join habs, hsplit, Path.collapse_append, collapse,
      List.reverse_reverse]
    rcases Path.lead_of_relative habs with hl | hl
    · rw [hl, List.nil_append]
    · rw [hl, List.singleton_append, Path.foldl_pushNormal_here]

/-- A path leads to the place of its normal form. -/
theorem pathTo_of_locate? (h : disk.locate? path = some here) : pathTo here = disk.place path := by
  rw [eq_foldl_of_follow h]
  exact pathTo_foldl_step disk path

/-- What a disk becomes by writes: the working directory stays, and so does every directory. -/
structure Extends (disk next : Disk) : Prop where
  working : next.working = disk.working
  isDirectory : ∀ here, disk.isDirectory here = true → next.isDirectory here = true

namespace Extends

theorem refl (disk : Disk) : Extends disk disk := ⟨rfl, fun _ h => h⟩

theorem trans (h : Extends disk mid) (h' : Extends mid next) : Extends disk next :=
  ⟨h'.working.trans h.working, fun here hd => h'.isDirectory here (h.isDirectory here hd)⟩

theorem place_eq (h : Extends disk next) (path : Path) : next.place path = disk.place path := by
  rw [place, h.working, ← place]

theorem follow (h : Extends disk next) (hf : disk.follow here parts = some last) :
    next.follow here parts = some last := by
  induction parts generalizing here with
  | nil => exact hf
  | cons part rest ih =>
    rw [Disk.follow] at hf ⊢
    split at hf
    · rename_i hdir
      rw [if_pos (h.isDirectory here hdir)]
      exact ih hf
    · cases hf

/-- A way stays open. -/
theorem locate? (h : Extends disk next) (hl : disk.locate? path = some here) :
    next.locate? path = some here := by
  have hstart : next.start path = disk.start path := by rw [start, start, h.working]
  rw [Disk.locate?, hstart]
  exact h.follow hl

end Extends

theorem extends_folder (disk : Disk) (folder : Path) :
    Extends disk { disk with folders := folder :: disk.folders } := by
  refine ⟨rfl, fun here h => ?_⟩
  simp only [isDirectory, List.any_cons, Bool.or_eq_true] at h ⊢
  rcases h with (h | h) | h
  · exact .inl (.inl h)
  · exact .inl (.inr (.inr h))
  · exact .inr h

theorem extends_put (disk : Disk) (here : List Component) (text : String) :
    Extends disk (disk.put here text) := by
  refine ⟨rfl, fun other h => ?_⟩
  simp only [isDirectory, put, Bool.or_eq_true] at h ⊢
  refine h.imp_right fun hkeys => ?_
  obtain ⟨key, hmem, habove⟩ := List.any_eq_true.1 hkeys
  exact List.any_eq_true.2 ⟨key, PathMap.mem_keys_insertEntry _ _ hmem, habove⟩

/-- Directories are made without a change to any file. -/
theorem extends_makeAlong {made : Bool} (h : disk.makeAlong here parts = (made, next)) :
    Extends disk next ∧ next.files = disk.files := by
  induction parts generalizing disk here with
  | nil =>
    obtain ⟨-, rfl⟩ := Prod.mk.inj h
    exact ⟨.refl disk, rfl⟩
  | cons part rest ih =>
    rw [makeAlong] at h
    split at h
    · exact ih h
    · split at h
      · obtain ⟨-, rfl⟩ := Prod.mk.inj h
        exact ⟨.refl disk, rfl⟩
      · obtain ⟨hnext, hfiles⟩ := ih h
        exact ⟨(extends_folder disk _).trans hnext, hfiles⟩

theorem extends_of_makeDirectory {answer : Except String Unit}
    (h : writer.makeDirectory path disk = (answer, next)) :
    Extends disk next ∧ next.files = disk.files := by
  simp only [writer] at h
  split at h <;> rename_i hmade <;> obtain ⟨-, rfl⟩ := Prod.mk.inj h <;>
    exact extends_makeAlong hmade

/-- There is a way to a file or a directory, or to a name in a directory. -/
def Opens (disk : Disk) (path : Path) : Prop :=
  path.spelling ≠ "" ∧ ∃ here, disk.locate? path = some here

theorem Opens.extend (h : disk.Opens path) (he : Extends disk next) : next.Opens path :=
  ⟨h.1, h.2.imp fun _ hl => he.locate? hl⟩

/-- A file is seen at every path that leads to it. -/
theorem Opens.fileSystem_eq (h : disk.Opens path) {text : Option String}
    (hf : disk.files.find? (disk.place path) = some text) : disk.fileSystem path = .file text := by
  obtain ⟨hne, here, hl⟩ := h
  have hfile : disk.file? here = some text := by rw [file?, pathTo_of_locate? hl, hf]
  simp only [fileSystem, if_neg hne, hl, Option.map_some, Option.getD_some, entryAt, hfile]

/-- What a write that succeeds leaves of a disk. -/
structure Written (disk next : Disk) (path : Path) (text : String) : Prop where
  grown : Extends disk next
  files : next.files = disk.files.insert (disk.place path) (some text)
  opens : next.Opens path

theorem written_of_writeFile {text : String}
    (h : writer.writeFile path text disk = (.ok (), next)) : Written disk next path text := by
  simp only [writer] at h
  split at h
  · cases (Prod.mk.inj h).1
  · rename_i made hmade
    obtain ⟨hgrown, hfiles⟩ := extends_makeAlong hmade
    split at h
    · rename_i here htarget
      obtain ⟨-, rfl⟩ := Prod.mk.inj h
      unfold target? at htarget
      split at htarget
      · rename_i hname
        have hlocate := (Option.filter_eq_some_iff.1 htarget).1
        have hput := extends_put made here text
        have hne : path.spelling ≠ "" := by
          intro he
          rw [endsInName, he] at hname
          exact absurd hname (by decide)
        refine ⟨hgrown.trans hput, ?_, hne, here, hput.locate? hlocate⟩
        rw [put, pathTo_of_locate? hlocate, hgrown.place_eq, hfiles]
      · cases htarget
    · cases (Prod.mk.inj h).1

end Disk

end Codemod
