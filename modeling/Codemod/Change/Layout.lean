import Codemod.Text.Offset
import Codemod.Text.Blank

/-!
The layout around a place in a text.
-/
namespace Codemod

/-- How the list around a place is laid out. -/
structure Layout where
  /-- A line break follows. -/
  multiline : Bool
  /-- The indentation for a new line. -/
  indent : List Char
  deriving DecidableEq

namespace Layout

def lastLine (cs : List Char) : List Char := (cs.reverse.takeWhile fun c => c != '\n').reverse

def isOpener (c : Char) : Bool := c == '\x7b' || c == '[' || c == '('

/-- The layout between two parts of a text. A new line is indented like the line of the place,
and by two spaces more directly behind an opening mark. -/
def between (front back : List Char) : Layout :=
  let indent := (lastLine front ++ back).takeWhile Text.isIndent
  let afterOpener := (front.getLast?.map isOpener).getD false
  { multiline := (back.takeWhile Text.isBlank).contains '\n'
    indent := if afterOpener then indent ++ [' ', ' '] else indent }

end Layout

end Codemod
