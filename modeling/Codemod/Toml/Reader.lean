import Codemod.Toml.Quoted
import Codemod.Toml.Scalar
import Codemod.Toml.Table

/-!
Reading TOML.

A document is a sequence of lines: headers and keys with values. The lines are read first and then
put together to a table.
-/
namespace Codemod.Toml

def skipSpace (cs : List Char) : List Char := cs.dropWhile isSpace

/-- What follows a comment that may be there; it ends in front of the line break. -/
def skipComment? : List Char → Option (List Char)
  | '#' :: rest =>
    let text := rest.takeWhile fun c => c != '\n' && c != '\r'
    if text.all isPlain then some (rest.drop text.length) else none
  | cs => some cs

/-- What follows blanks, comments and line breaks. The fuel bounds the number of lines. -/
def skipLines? : Nat → List Char → Option (List Char)
  | 0, _ => none
  | fuel + 1, cs =>
    match skipComment? (skipSpace cs) with
    | none => none
    | some rest =>
      match afterBreak? rest with
      | some more => skipLines? fuel more
      | none => some rest

def endLine? (cs : List Char) : Option (List Char) :=
  match skipComment? (skipSpace cs) with
  | some [] => some []
  | some rest => afterBreak? rest
  | none => none

def isKeyChar (c : Char) : Bool := c.isAlphanum || c == '_' || c == '-'

def keyPart? (cs : List Char) : Option (String × List Char) :=
  match cs.takeWhile isKeyChar with
  | [] => (quotedLine? cs).map fun (text, rest) => (String.ofList text, rest)
  | name => some (String.ofList name, cs.drop name.length)

/-- A key: parts with dots between them, the last one apart. The fuel bounds their number. -/
def key? : Nat → List Char → Option ((List String × String) × List Char)
  | 0, _ => none
  | fuel + 1, cs => do
    let (part, rest) ← keyPart? (skipSpace cs)
    match skipSpace rest with
    | '.' :: rest =>
      let ((path, last), rest) ← key? fuel rest
      some ((part :: path, last), rest)
    | rest => some (([], part), rest)

/-- The items of a list up to its closing mark, with commas between them and perhaps one at the
end. The fuel bounds their number. -/
def items? {α : Type} (item? : List Char → Option (α × List Char)) (close : Char) :
    Nat → List Char → Option (List α × List Char)
  | 0, _ => none
  | fuel + 1, cs => do
    match ← skipLines? (cs.length + 1) cs with
    | [] => none
    | c :: rest =>
      if c = close then some ([], rest)
      else
        let (first, rest) ← item? (c :: rest)
        match ← skipLines? (rest.length + 1) rest with
        | [] => none
        | d :: rest =>
          if d = close then some ([first], rest)
          else if d = ',' then
            let (more, rest) ← items? item? close fuel rest
            some (first :: more, rest)
          else none

structure Assignment where
  path : List String
  key : String
  value : Toml

def assignment? (value? : List Char → Option (Toml × List Char)) (cs : List Char) :
    Option (Assignment × List Char) := do
  let ((path, key), rest) ← key? (cs.length + 1) cs
  match rest with
  | '=' :: rest =>
    let (value, rest) ← value? (skipSpace rest)
    some (⟨path, key, value⟩, rest)
  | _ => none

def braced? (assignments : List Assignment) : Option Toml :=
  (assignments.foldlM (fun members (a : Assignment) => define a.path a.key a.value .braces members)
    []).map (.table .braces)

/-- A value. The depth is the number of arrays and tables that may still be opened. -/
def value? : Nat → List Char → Option (Toml × List Char)
  | depth + 1, '[' :: rest =>
    (items? (value? depth) ']' (rest.length + 1) rest).map fun (items, rest) =>
      (.array items, rest)
  | depth + 1, '\x7b' :: rest =>
    (items? (assignment? (value? depth)) '\x7d' (rest.length + 1) rest).bind
      fun (assignments, rest) => (braced? assignments).map fun table => (table, rest)
  | _, '\x22' :: rest =>
    (quoted? ('\x22' :: rest)).map fun (text, rest) => (.string (String.ofList text), rest)
  | _, '\x27' :: rest =>
    (quoted? ('\x27' :: rest)).map fun (text, rest) => (.string (String.ofList text), rest)
  | _, cs =>
    let (text, rest) := scalarText cs
    (scalar? text).map fun value => (value, rest)

/-- The number of arrays and tables that may be open at a time. -/
def nestingLimit : Nat := 80

inductive Line where
  | assign (assignment : Assignment)
  | openTable (path : List String) (key : String)
  | openTables (path : List String) (key : String)

def line? (cs : List Char) : Option (Line × List Char) :=
  match cs with
  | '[' :: '[' :: rest => do
    let ((path, key), rest) ← key? (rest.length + 1) rest
    match rest with
    | ']' :: ']' :: rest => some (.openTables path key, ← endLine? rest)
    | _ => none
  | '[' :: rest => do
    let ((path, key), rest) ← key? (rest.length + 1) rest
    match rest with
    | ']' :: rest => some (.openTable path key, ← endLine? rest)
    | _ => none
  | _ => do
    let (assignment, rest) ← assignment? (value? nestingLimit) cs
    some (.assign assignment, ← endLine? rest)

def lines? : Nat → List Char → Option (List Line)
  | 0, _ => none
  | fuel + 1, cs => do
    match ← skipLines? (cs.length + 1) cs with
    | [] => some []
    | rest =>
      let (line, rest) ← line? rest
      let more ← lines? fuel rest
      some (line :: more)

/-- Puts the lines under a header into the members of a document. -/
def assemble? : List String → List Line → Members → Option Members
  | _, [], members => some members
  | header, .assign a :: rest, members =>
    (defineUnder header a.path a.key a.value members).bind (assemble? header rest)
  | _, .openTable path key :: rest, members =>
    (openTable path key members).bind (assemble? (path ++ [key]) rest)
  | _, .openTables path key :: rest, members =>
    (openTables path key members).bind (assemble? (path ++ [key]) rest)

def dropOrderMark : List Char → List Char
  | '\ufeff' :: rest => rest
  | cs => cs

def read? (text : String) : Option Members :=
  let cs := dropOrderMark text.toList
  (lines? (cs.length + 1) cs).bind fun lines => assemble? [] lines []

end Codemod.Toml
