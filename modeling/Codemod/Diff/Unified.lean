import Codemod.Diff.Hunk
import Codemod.Text.Lines

/-!
The text of a difference.

Lines are marked by their first character. A line that lacks its line break is given one and a
note; an empty unchanged line is written without a mark.
-/
namespace Codemod.Diff

def markedLine (mark : Char) (line : List Char) : List Char :=
  let text := if mark = ' ' ∧ line = ['\n'] then line else mark :: line
  if Text.isWhole line then text
  else text ++ '\n' :: "\\ No newline at end of file\n".toList

def HunkLine.text : HunkLine (List Char) → List Char
  | context line => markedLine ' ' line
  | removed line => markedLine '-' line
  | added line => markedLine '+' line

/-- A range of lines: its first line, counted from one unless there is none, and its length unless
that is one. -/
def rangeText (start count : Nat) : String :=
  let first := toString (if 0 < count then start + 1 else start)
  if count = 1 then first else first ++ "," ++ toString count

def Hunk.text (hunk : Hunk (List Char)) : List Char :=
  ("@@ -" ++ rangeText hunk.oldStart hunk.oldCount ++ " +"
    ++ rangeText hunk.newStart hunk.newCount ++ " @@\n").toList
    ++ hunk.lines.flatMap HunkLine.text

def unified (old new : String) : String :=
  "--- original\n+++ modified\n"
    ++ String.ofList
      ((between (Text.lines old.toList) (Text.lines new.toList)).flatMap Hunk.text)

end Codemod.Diff
