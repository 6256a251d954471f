import Codemod.Path.Basic

/-!
Lexical normal form of paths.

`normalize` drops every `.` and lets `..` take away the name before it. A `..` directly under the
root disappears; where nothing is left to take away it stays, so that only a relative path begins
with `..`.
-/
namespace Codemod.Path

/-- One more component on top of the components kept so far, which are listed last first. -/
def pushNormal (kept : List Component) : Component → List Component
  | .here => kept
  | .up =>
    match kept with
    | .name _ :: rest => rest
    | .root :: _ => kept
    | _ => .up :: kept
  | c => c :: kept

/-- The components without `.` and without a `..` that follows a name. -/
def collapse (parts : List Component) : List Component :=
  (parts.foldl pushNormal []).reverse

def normalize (p : Path) : Path := ofComponents (collapse p.components)

end Codemod.Path
