import Codemod.Change.Anchoring
import Codemod.Change.Presence
import Codemod.Change.Layout

/-!
Planning a change.

A change that is there already leads to a plan that does nothing. Otherwise a place is located and
the text to put there is laid out to suit it.
-/
namespace Codemod

inductive PlanError where
  | anchorNotFound (path : Path) (pattern : AnchorPattern)
  | targetMissing (path : Option Path)
  | incompatibleAnchor (path : Path) (change : Change) (kind : AnchorKind)
  | nameTaken (path : Path) (identifier module : String)
  /-- The place is not a place in the text; no located anchor leads here. -/
  | offsetOutsideText (path : Path) (offset : Nat)
  | source (error : SourceError)

namespace PlanError

def message : PlanError → String
  | anchorNotFound path pattern => path.spelling ++ ": no " ++ pattern.describe
  | targetMissing path =>
    "target file missing: " ++ (path.map Path.spelling).getD "<not configured>"
  | incompatibleAnchor path change kind =>
    path.spelling ++ ": a " ++ change.label ++ " change cannot attach at " ++ kind.label
  | nameTaken path identifier module =>
    path.spelling ++ ": `" ++ identifier
      ++ "` is already bound; refusing to import it again from '" ++ module ++ "'"
  | offsetOutsideText path offset =>
    path.spelling ++ ": offset " ++ toString offset ++ " is no place in the text"
  | source error => error.message

def isTargetMissing : PlanError → Bool
  | targetMissing _ => true
  | _ => false

end PlanError

namespace SourceFile

def findAnchor (file : SourceFile) (pattern : AnchorPattern) : Except PlanError Anchor :=
  match file.anchor? pattern with
  | some anchor => .ok anchor
  | none => .error (.anchorNotFound file.path pattern)

/-- The place for a change. An import goes into the list of an import of the module if there is
one, and else behind the imports. -/
def locate (file : SourceFile) : Change → Except PlanError Anchor
  | .appendField declarator _ _ => file.findAnchor (.objectLiteralOf declarator)
  | .insertImport _ module =>
    match file.anchor? (.namedImportsOf module) with
    | some anchor => .ok anchor
    | none => file.findAnchor .afterLastImport
  | .register callee (some property) _ => file.findAnchor (.callObjectProperty callee property)
  | .register callee none _ => file.findAnchor (.callArgumentList callee)

/-- The text that adds an element to a list at a place between two parts of a text. -/
def elementText (front back : List Char) (needsSeparator : Bool) (element : String) : String :=
  let layout := Layout.between front back
  let comma := if needsSeparator then [','] else []
  let lead :=
    if layout.multiline then comma ++ '\n' :: layout.indent
    else if needsSeparator then [',', ' ']
    else if front.getLast? == some ',' then [' ']
    else []
  String.ofList (lead ++ element.toList)

/-- The text that adds an element to a list at an anchor. -/
def elementInsertion (file : SourceFile) (anchor : Anchor) (element : String) :
    Except PlanError String :=
  match Text.cut? file.text.toList anchor.offset with
  | some (front, back) => .ok (elementText front back anchor.needsSeparator element)
  | none => .error (.offsetOutsideText file.path anchor.offset)

def insertionText (file : SourceFile) (anchor : Anchor) (change : Change) :
    Except PlanError String :=
  let refuse : Except PlanError String :=
    .error (.incompatibleAnchor file.path change anchor.kind)
  match change with
  | .appendField _ key entries =>
    match anchor.kind with
    | .objectLiteralClose =>
      .ok ((if anchor.needsSeparator then ",\n" else "\n") ++ renderField key entries)
    | _ => refuse
  | .insertImport identifier module =>
    match anchor.kind with
    | .namedImportsClose => .ok ((if anchor.needsSeparator then ", " else " ") ++ identifier)
    | .afterLastImport => .ok ("\n" ++ renderImport identifier module)
    | .documentStart => .ok (renderImport identifier module ++ "\n")
    | _ => refuse
  | .register _ property token =>
    match anchor.kind, property with
    | .arrayLiteralClose, _ | .callArgumentListClose, _ => file.elementInsertion anchor token
    | .objectLiteralClose, some property =>
      file.elementInsertion anchor (property ++ ": [" ++ token ++ "]")
    | _, _ => refuse

/-- The plan of a change that is there already. -/
def noOpPlan (file : SourceFile) (change : Change) : EditPlan :=
  .noOp file.path (change.describe ++ " already present")

/-- Plans a change at an anchor. -/
def planAt (file : SourceFile) (anchor : Anchor) (change : Change) (present : Bool) :
    Except PlanError EditPlan :=
  if present then .ok (file.noOpPlan change)
  else
    (file.insertionText anchor change).map fun text =>
      .insert file.path anchor.offset text (change.describe ++ " at " ++ anchor.kind.label)

/-- An import whose name is bound already, though not from its module. -/
def collides (file : SourceFile) : Change → Option PlanError
  | .insertImport identifier module =>
    if file.nameTaken identifier then some (.nameTaken file.path identifier module) else none
  | _ => none

def plan (file : SourceFile) (change : Change) : Except PlanError EditPlan :=
  if file.isPresent change then .ok (file.noOpPlan change)
  else match file.collides change with
    | some error => .error error
    | none => do
      let anchor ← file.locate change
      file.planAt anchor change false

end SourceFile

end Codemod
