import Codemod.Change.Planning

/-!
Failures of staging.
-/
namespace Codemod

inductive EditError where
  /-- The file as it is has no structure. -/
  | source (error : SourceError)
  | plan (error : PlanError)
  /-- The file would have no structure after the edit. -/
  | wouldCorrupt (path : Path) (error : SourceError)
  /-- The offset is no place in the staged text, which has `size` bytes. -/
  | offsetOutside (path : Path) (offset size : Nat)
  /-- The file cannot be read. -/
  | unreadable (reason : String)

namespace EditError

def message : EditError → String
  | source error => error.message
  | plan error => error.message
  | wouldCorrupt path error =>
    path.spelling ++ ": edit refused, result would not parse: " ++ error.message
  | offsetOutside path offset size =>
    path.spelling ++ ": offset " ++ toString offset ++ " is not a valid position in "
      ++ toString size ++ " bytes of staged text"
  | unreadable reason => "runtime error: " ++ reason

/-- A target that is not there leads to a step that is skipped. -/
def isTargetMissing : EditError → Bool
  | plan error => error.isTargetMissing
  | _ => false

/-- The exit status that suits a failure: 2 for a refusal, 1 for trouble with the files. -/
def exitCode : EditError → Nat
  | unreadable _ => 1
  | _ => 2

end EditError

end Codemod
