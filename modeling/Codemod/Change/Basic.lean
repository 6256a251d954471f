import Codemod.Path.Basic

/-!
Changes to source files, the places they attach to, and the plans they lead to.
-/
namespace Codemod

structure ConfigEntry where
  key : String
  value : String
  deriving DecidableEq, Repr, Inhabited

/-- What is to be brought into a source file. -/
inductive Change where
  /-- A field with an object of entries, in the object that a declarator is set to. -/
  | appendField (declarator : Option String) (key : String) (entries : List ConfigEntry)
  /-- A name imported from a module. -/
  | insertImport (identifier module : String)
  /-- An element in a call's arguments, or in an array property of its object argument. -/
  | register (callee : String) (property : Option String) (token : String)
  deriving DecidableEq, Repr, Inhabited

def Change.label : Change → String
  | appendField .. => "append_object_field"
  | insertImport .. => "insert_import"
  | register .. => "register_in_call"

def Change.describe : Change → String
  | appendField _ key _ => "object field `" ++ key ++ "`"
  | insertImport identifier module => "import of `" ++ identifier ++ "` from '" ++ module ++ "'"
  | register callee _ token => "`" ++ token ++ "` in `" ++ callee ++ "`"

/-- A description of a place in a source file. -/
inductive AnchorPattern where
  | objectLiteralOf (declarator : Option String)
  | afterLastImport
  | namedImportsOf (module : String)
  | callArgumentList (callee : String)
  | callObjectProperty (callee property : String)
  deriving DecidableEq, Repr, Inhabited

def AnchorPattern.describe : AnchorPattern → String
  | objectLiteralOf (some name) => "object literal of `" ++ name ++ "`"
  | objectLiteralOf none => "first top-level object literal"
  | afterLastImport => "after last import"
  | namedImportsOf module => "named imports from '" ++ module ++ "'"
  | callArgumentList callee => "argument list of `" ++ callee ++ "(...)`"
  | callObjectProperty callee property =>
    "`" ++ property ++ "` array of `" ++ callee ++ "(\x7b...\x7d)`"

/-- The kinds of places that text can be put at. -/
inductive AnchorKind where
  | objectLiteralClose
  | afterLastImport
  | documentStart
  | namedImportsClose
  | arrayLiteralClose
  | callArgumentListClose
  deriving DecidableEq, Repr, Inhabited

def AnchorKind.label : AnchorKind → String
  | objectLiteralClose => "ObjectLiteralClose"
  | afterLastImport => "AfterLastImport"
  | documentStart => "DocumentStart"
  | namedImportsClose => "NamedImportsClose"
  | arrayLiteralClose => "ArrayLiteralClose"
  | callArgumentListClose => "CallArgumentListClose"

/-- A place in a text, and whether a comma has to come first there. -/
structure Anchor where
  offset : Nat
  kind : AnchorKind
  needsSeparator : Bool
  deriving DecidableEq, Repr, Inhabited

inductive EditPlan where
  | noOp (target : Path) (rationale : String)
  | insert (target : Path) (offset : Nat) (text rationale : String)
  deriving DecidableEq, Inhabited

namespace EditPlan

def target : EditPlan → Path
  | noOp target _ => target
  | insert target _ _ _ => target

def rationale : EditPlan → String
  | noOp _ rationale => rationale
  | insert _ _ _ rationale => rationale

def isNoOp : EditPlan → Bool
  | noOp .. => true
  | insert .. => false

end EditPlan

end Codemod
