import Codemod.Json.Printer
import Codemod.Json.Reader
import Codemod.Manifest.Indent

/-!
Declaring dependencies in a manifest.

A manifest is a JSON object, and its member `dependencies` an object of versions by package name.
What is declared already stays as it is. A table in the order of its names stays in that order,
and in any other a new name comes last.
-/
namespace Codemod.Manifest

structure Dependency where
  name : String
  version : String
  deriving DecidableEq, Repr, Inhabited

/-- The members of an object. -/
abbrev Table := List (String × Json)

def declares (table : Table) (name : String) : Bool := (Json.lookup name table).isSome

/-- The names of a table follow one another in order. -/
def isSorted : Table → Bool
  | first :: second :: rest => first.1 ≤ second.1 && isSorted (second :: rest)
  | _ => true

/-- Puts a member in front of the first with a greater name. -/
def insertSorted (name : String) (value : Json) : Table → Table
  | [] => [(name, value)]
  | (key, old) :: rest =>
    if name < key then (name, value) :: (key, old) :: rest
    else (key, old) :: insertSorted name value rest

/-- A table in which a dependency is declared. -/
def declare (table : Table) (dependency : Dependency) : Table :=
  if declares table dependency.name then table
  else if isSorted table then insertSorted dependency.name (.string dependency.version) table
  else table ++ [(dependency.name, .string dependency.version)]

inductive ShapeError where
  | notJson (fault : Json.Fault)
  | notObject
  | tableNotObject

def ShapeError.message : ShapeError → String
  | notJson fault => "invalid JSON: " ++ fault.message
  | notObject => "manifest is not a JSON object"
  | tableNotObject => "`dependencies` is not an object"

/-- The dependencies among the members of a manifest. -/
def tableOf (members : Table) : Except ShapeError Table :=
  match Json.lookup "dependencies" members with
  | none => .ok []
  | some (.object table) => .ok table
  | some _ => .error .tableNotObject

def membersOf (text : String) : Except ShapeError Table :=
  match Json.read text with
  | .error fault => .error (.notJson fault)
  | .ok (.object members) => .ok members
  | .ok _ => .error .notObject

/-- A manifest as text, laid out like another text. -/
def layOutLike (text : String) (json : Json) : String :=
  json.pretty (detectIndent text) ++ (if text.toList.getLast? = some '\n' then "\n" else "")

/-- The text of a manifest in which all dependencies are declared, unless they are already. -/
def declareAll? (text : String) (dependencies : List Dependency) :
    Except ShapeError (Option String) := do
  let members ← membersOf text
  let table ← tableOf members
  if dependencies.all fun dependency => declares table dependency.name then return none
  else
    let table := dependencies.foldl declare table
    return some (layOutLike text (.object (Json.put "dependencies" (.object table) members)))

end Codemod.Manifest
