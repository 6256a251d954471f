import Codemod.Path.Basic

/-!
Maps whose keys are paths.

The entries stand in the order of their paths. Paths with the same components are one key, which
keeps the spelling it was first given.
-/
namespace Codemod

/-- Values by path, in the order of the paths. -/
structure PathMap (β : Type) where
  entries : List (Path × β)

namespace PathMap

variable {β : Type}

def empty : PathMap β := ⟨[]⟩

def findEntry? (path : Path) : List (Path × β) → Option β
  | [] => none
  | (key, value) :: rest => if key.same path then some value else findEntry? path rest

def find? (map : PathMap β) (path : Path) : Option β := findEntry? path map.entries

def contains (map : PathMap β) (path : Path) : Bool := (map.find? path).isSome

def insertEntry (path : Path) (value : β) : List (Path × β) → List (Path × β)
  | [] => [(path, value)]
  | (key, old) :: rest =>
    match path.compare key with
    | .lt => (path, value) :: (key, old) :: rest
    | .eq => (key, value) :: rest
    | .gt => (key, old) :: insertEntry path value rest

def insert (map : PathMap β) (path : Path) (value : β) : PathMap β :=
  ⟨insertEntry path value map.entries⟩

/-- The map of some entries, of which later ones count. -/
def ofList (entries : List (Path × β)) : PathMap β :=
  entries.foldl (fun map entry => map.insert entry.1 entry.2) empty

def keys (map : PathMap β) : List Path := map.entries.map Prod.fst

end PathMap

end Codemod
