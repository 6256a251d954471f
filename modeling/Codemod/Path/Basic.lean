import Codemod.Text.Split

/-!
File paths.

A path is kept as it was spelled, and is compared by its components: repeated separators, `.`
inside a path and separators at its end make no difference, while `..` and a leading `.` do.
`Path.compare` orders paths component by component, which is not the order of their spellings.
-/
namespace Codemod

/-- A path as it was spelled, with `/` between the names. -/
structure Path where
  spelling : String
  deriving DecidableEq, Inhabited

namespace Path

/-- What a path is made of. `here` occurs only at the start of a relative path. -/
inductive Component where
  | root
  | here
  | up
  | name (text : String)
  deriving DecidableEq, Repr

namespace Component

def text : Component → String
  | root => "/"
  | here => "."
  | up => ".."
  | name s => s

def rank : Component → Nat
  | root => 0
  | here => 1
  | up => 2
  | name _ => 3

/-- Roots come first, then `.`, `..` and the names in their own order. -/
def compare : Component → Component → Ordering
  | name a, name b => Ord.compare a b
  | a, b => Ord.compare a.rank b.rank

def ofPart (part : String) : Component := if part = ".." then up else name part

end Component

/-- A part that adds no component: nothing between two separators, or a `.`. -/
def isIdle (part : String) : Bool := part == "" || part == "."

def components (p : Path) : List Component :=
  let inner (parts : List String) : List Component :=
    (parts.filter fun part => !isIdle part).map Component.ofPart
  match Text.splitText '/' p.spelling with
  | "" :: rest => if p.spelling = "" then [] else .root :: inner rest
  | "." :: rest => .here :: inner rest
  | parts => inner parts

def ofComponents : List Component → Path
  | .root :: rest => ⟨"/" ++ Text.joinText "/" (rest.map Component.text)⟩
  | parts => ⟨Text.joinText "/" (parts.map Component.text)⟩

/-- Paths with the same components name the same file. -/
def same (p q : Path) : Bool := p.components == q.components

/-- Lexicographic order of component lists. -/
def compareComponents : List Component → List Component → Ordering
  | [], [] => .eq
  | [], _ :: _ => .lt
  | _ :: _, [] => .gt
  | a :: as, b :: bs =>
    match a.compare b with
    | .eq => compareComponents as bs
    | order => order

/-- The order of paths, component by component. -/
def compare (p q : Path) : Ordering := compareComponents p.components q.components

def isAbsolute (p : Path) : Bool := p.spelling.toList.head? == some '/'

/-- The last component, if it is a name. -/
def fileName (p : Path) : Option String :=
  match p.components.getLast? with
  | some (.name s) => some s
  | _ => none

/-- What follows the last `.` of the file name. A name that only starts with a `.` has none. -/
def extension (p : Path) : Option String :=
  match p.fileName with
  | none => none
  | some s =>
    match (Text.split '.' s.toList).reverse with
    | last :: front :: more =>
      if front.isEmpty && more.isEmpty then none else some (String.ofList last)
    | _ => none

/-- The path without its last component, spelled as before; the root and the empty path have no
parent. -/
def parent (p : Path) : Option Path :=
  let trimmed (parts : List String) : List String := (parts.reverse.dropWhile isIdle).reverse
  let outer (lead : List String) (parts : List String) : Option (List String) :=
    match trimmed parts with
    | [] => none
    | kept => some (lead ++ trimmed kept.dropLast)
  match Text.splitText '/' p.spelling with
  | "" :: rest =>
    if p.spelling = "" then none
    else match outer [] rest with
      | none => none
      | some parts => some ⟨"/" ++ Text.joinText "/" parts⟩
  | "." :: rest =>
    match outer ["."] rest with
    | none => some ⟨""⟩
    | some parts => some ⟨Text.joinText "/" parts⟩
  | parts => (outer [] parts).map fun kept => ⟨Text.joinText "/" kept⟩

/-- The directory that holds the file a path names, as the empty path where there is none. -/
def directory (p : Path) : Path := p.parent.getD ⟨""⟩

/-- One path inside another. An absolute path stands for itself. -/
def join (base inner : Path) : Path :=
  if inner.isAbsolute then inner
  else if base.spelling = "" then inner
  else if base.spelling.toList.getLast? = some '/' then ⟨base.spelling ++ inner.spelling⟩
  else ⟨base.spelling ++ "/" ++ inner.spelling⟩

end Path

end Codemod
