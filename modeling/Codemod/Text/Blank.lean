/-!
Blank characters and text without them.

`isBlank` is the Unicode property `White_Space`. Names of calls and of list elements are compared
after `squash`, so that line breaks and indentation inside them do not matter.
-/
namespace Codemod.Text

/-- The characters that Unicode lists as `White_Space`. -/
def isBlank (c : Char) : Bool :=
  let n := c.toNat
  (9 ≤ n && n ≤ 13) || n == 0x20 || n == 0x85 || n == 0xA0 || n == 0x1680
    || (0x2000 ≤ n && n ≤ 0x200A) || n == 0x2028 || n == 0x2029 || n == 0x202F
    || n == 0x205F || n == 0x3000

/-- The characters that lines are indented with. -/
def isIndent (c : Char) : Bool := c == ' ' || c == '\t'

/-- A text without its blank characters. -/
def squash (s : String) : String :=
  String.ofList (s.toList.filter fun c => !isBlank c)

def trimStart (cs : List Char) : List Char := cs.dropWhile isBlank

def trimEnd (cs : List Char) : List Char := (cs.reverse.dropWhile isBlank).reverse

def trim (cs : List Char) : List Char := trimEnd (trimStart cs)

@[simp] theorem toList_squash (s : String) :
    (squash s).toList = s.toList.filter fun c => !isBlank c := by
  simp [squash]

end Codemod.Text
