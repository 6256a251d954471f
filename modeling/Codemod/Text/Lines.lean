/-!
The lines of a text, each with the line break at its end.
-/
namespace Codemod.Text

/-- The lines of a run of characters, line breaks included. -/
def lines : List Char → List (List Char)
  | [] => []
  | c :: cs =>
    if c = '\n' then ['\n'] :: lines cs
    else match lines cs with
      | [] => [[c]]
      | line :: rest => (c :: line) :: rest

/-- Putting the lines together again loses nothing. -/
@[simp] theorem flatten_lines (cs : List Char) : (lines cs).flatten = cs := by
  induction cs with
  | nil => rfl
  | cons c cs ih =>
    rw [lines]
    split
    · simp_all
    · cases h : lines cs with
      | nil => rw [h] at ih; simp [← ih]
      | cons line rest => rw [h] at ih; simp [← ih]

def isWhole (line : List Char) : Bool := line.getLast? == some '\n'

end Codemod.Text
