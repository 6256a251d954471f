/-!
Names and single-quoted literals of the source languages.
-/
namespace Codemod.Text

def startsName (c : Char) : Bool := c.isAlpha || c == '_' || c == '$'

def continuesName (c : Char) : Bool := c.isAlphanum || c == '_' || c == '$'

/-- A name that needs no quotes; only ASCII names are taken for such. -/
def isPlainName : List Char → Bool
  | [] => false
  | c :: cs => startsName c && cs.all continuesName

def escapeQuoted (c : Char) : List Char :=
  if c = '\\' then ['\\', '\\']
  else if c = '\x27' then ['\\', '\x27']
  else if c = '\n' then ['\\', 'n']
  else if c = '\r' then ['\\', 'r']
  else if c = '\u2028' then ['\\', 'u', '2', '0', '2', '8']
  else if c = '\u2029' then ['\\', 'u', '2', '0', '2', '9']
  else [c]

def escaped (s : String) : List Char := s.toList.flatMap escapeQuoted

def singleQuoted (s : String) : List Char := '\x27' :: (escaped s ++ ['\x27'])

/-- A property key: the name itself where it is plain, else a literal. -/
def propertyKey (s : String) : List Char :=
  if isPlainName s.toList then s.toList else singleQuoted s

end Codemod.Text
