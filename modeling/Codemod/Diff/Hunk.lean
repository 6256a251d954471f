import Codemod.Diff.Search
import Codemod.Diff.Compaction

/-!
Hunks: the changes of a script with the unchanged lines around them.
-/
namespace Codemod.Diff

structure Edit where
  oldStart : Nat
  oldStop : Nat
  newStart : Nat
  newStop : Nat
  deriving Repr, DecidableEq

/-- The changes of a script. Pieces that follow one another directly make one change. -/
def edits {α : Type} : Nat → Nat → Option Edit → Script α → List Edit
  | _, _, pending, [] => pending.toList
  | i, j, pending, .keep items :: rest =>
    pending.toList ++ edits (i + items.length) (j + items.length) none rest
  | i, j, pending, .delete items :: rest =>
    let edit := match pending with
      | some e => { e with oldStop := e.oldStop + items.length }
      | none => ⟨i, i + items.length, j, j⟩
    edits (i + items.length) j (some edit) rest
  | i, j, pending, .insert items :: rest =>
    let edit := match pending with
      | some e => { e with newStop := e.newStop + items.length }
      | none => ⟨i, i, j, j + items.length⟩
    edits i (j + items.length) (some edit) rest

inductive HunkLine (α : Type) where
  | context (line : α)
  | removed (line : α)
  | added (line : α)

/-- Some changes and the lines around them. The starts count lines from zero. -/
structure Hunk (α : Type) where
  oldStart : Nat
  oldCount : Nat
  newStart : Nat
  newCount : Nat
  lines : List (HunkLine α)

/-- The number of unchanged lines shown around a change. -/
def contextLength : Nat := 3

def range {α : Type} (items : List α) (start stop : Nat) : List α :=
  (items.drop start).take (stop - start)

def Edit.lines {α : Type} (edit : Edit) (old new : List α) : List (HunkLine α) :=
  (range old edit.oldStart edit.oldStop).map .removed
    ++ (range new edit.newStart edit.newStop).map .added

def Edit.contextAfter {α : Type} (edit : Edit) (old new : List α) : Nat :=
  min contextLength (min (old.length - edit.oldStop) (new.length - edit.newStop))

/-- The lines from a change to the end of its hunk, the last change in it, and the changes left.
A change joins the hunk if its context would start before the hunk ends. -/
def hunkLines {α : Type} (old new : List α) (edit : Edit) :
    List Edit → List (HunkLine α) × Edit × List Edit
  | [] =>
    (edit.lines old new ++ (range new edit.newStop (edit.newStop + edit.contextAfter old new)).map
      .context, edit, [])
  | next :: rest =>
    if min next.oldStart (old.length - 1) - contextLength
        < edit.oldStop + edit.contextAfter old new then
      let (lines, last, left) := hunkLines old new next rest
      (edit.lines old new
        ++ (range new edit.newStop
          (edit.newStop + min (next.oldStart - edit.oldStop) (next.newStart - edit.newStop))).map
            .context
        ++ lines, last, left)
    else
      (edit.lines old new ++ (range new edit.newStop (edit.newStop + edit.contextAfter old new)).map
        .context, edit, next :: rest)

/-- The hunks of a list of changes; the fuel bounds their number. -/
def hunks {α : Type} (old new : List α) : Nat → List Edit → List (Hunk α)
  | 0, _ => []
  | _ + 1, [] => []
  | fuel + 1, edit :: rest =>
    let oldStart := edit.oldStart - contextLength
    let newStart := edit.newStart - contextLength
    let (lines, last, left) := hunkLines old new edit rest
    let hunk : Hunk α := {
      oldStart := oldStart
      oldCount := last.oldStop + last.contextAfter old new - oldStart
      newStart := newStart
      newCount := last.newStop + last.contextAfter old new - newStart
      lines := (range new newStart edit.newStart).map .context ++ lines }
    hunk :: hunks old new fuel left

def between {α : Type} [DecidableEq α] (old new : List α) : List (Hunk α) :=
  let script := compact (shortScript (old.length + new.length + 1) old new)
  let changes := edits 0 0 none script
  hunks old new changes.length changes

end Codemod.Diff
