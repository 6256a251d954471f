import Codemod.Diff.Ends

/-!
Edit scripts between two lists.

A script says piece by piece what stays, what goes and what comes. `Script.old` and `Script.new`
are the two lists it stands for; the passes that rearrange a script keep both.
-/
namespace Codemod.Diff

/-- A piece of an edit script. -/
inductive Piece (α : Type) where
  | keep (items : List α)
  | delete (items : List α)
  | insert (items : List α)
  deriving Repr

abbrev Script (α : Type) := List (Piece α)

namespace Piece

variable {α : Type}

def old : Piece α → List α
  | keep items | delete items => items
  | insert _ => []

def new : Piece α → List α
  | keep items | insert items => items
  | delete _ => []

def items : Piece α → List α
  | keep items | delete items | insert items => items

end Piece

namespace Script

variable {α : Type}

def old (script : Script α) : List α := script.flatMap Piece.old

def new (script : Script α) : List α := script.flatMap Piece.new

def size : Script α → Nat
  | [] => 0
  | piece :: rest => piece.items.length + 1 + size rest

end Script

def unlessEmpty {α : Type} (piece : Piece α) : Script α :=
  if piece.items.isEmpty then [] else [piece]

end Codemod.Diff
