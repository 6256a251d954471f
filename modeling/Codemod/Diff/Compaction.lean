import Codemod.Diff.Script

/-!
Moving the changes of a script.

Each change is moved up as far as it goes and then down as far as it goes. A change moves past
unchanged items where they equal its own items, trades places with a change of the other sort, and
joins a change of its own sort.
-/
namespace Codemod.Diff

/-- A change in the middle of a script: the pieces before it, nearest first, and those after. -/
structure Focus (α : Type) where
  above : Script α
  current : Piece α
  below : Script α

namespace Focus

variable {α : Type} [DecidableEq α]

def script (f : Focus α) : Script α := f.above.reverse ++ f.current :: f.below

def withItems (piece : Piece α) (items : List α) : Piece α :=
  match piece with
  | .keep _ => .keep items
  | .delete _ => .delete items
  | .insert _ => .insert items

def sameSort : Piece α → Piece α → Bool
  | .delete _, .delete _ | .insert _, .insert _ => true
  | _, _ => false

def keepBefore (items : List α) : Script α → Script α
  | .keep more :: rest => .keep (items ++ more) :: rest
  | rest => .keep items :: rest

/-- Unchanged items put behind a script that is listed nearest piece first. -/
def keepAfter (items : List α) : Script α → Script α
  | .keep more :: rest => .keep (more ++ items) :: rest
  | rest => .keep items :: rest

/-- One step up, if there is one. -/
def stepUp? (f : Focus α) : Option (Focus α) :=
  match f.above with
  | [] => none
  | .keep items :: above =>
    let own := f.current.items
    let n := commonBack own items
    if n = 0 then if items.isEmpty then some { f with above := above } else none
    else
      let moved := items.drop (items.length - n)
      let left := items.take (items.length - n)
      some {
        above := if left.isEmpty then above else .keep left :: above
        current := withItems f.current (moved ++ own.take (own.length - n))
        below := keepBefore moved f.below }
  | piece :: above =>
    if sameSort piece f.current then
      some { f with above := above, current := withItems piece (piece.items ++ f.current.items) }
    else some { f with above := above, below := piece :: f.below }

/-- One step down, if there is one. -/
def stepDown? (f : Focus α) : Option (Focus α) :=
  match f.below with
  | [] => none
  | .keep items :: below =>
    let own := f.current.items
    let n := commonFront own items
    if n = 0 then if items.isEmpty then some { f with below := below } else none
    else
      let moved := items.take n
      let left := items.drop n
      some {
        above := keepAfter moved f.above
        current := withItems f.current (own.drop n ++ moved)
        below := if left.isEmpty then below else .keep left :: below }
  | piece :: below =>
    if sameSort piece f.current then
      some { f with current := withItems piece (f.current.items ++ piece.items), below := below }
    else some { f with above := piece :: f.above, below := below }

/-- Takes steps as long as there are any; the fuel bounds their number. -/
def steps (step? : Focus α → Option (Focus α)) : Nat → Focus α → Focus α
  | 0, f => f
  | fuel + 1, f =>
    match step? f with
    | none => f
    | some g => steps step? fuel g

def settle (f : Focus α) : Focus α :=
  let bound := f.script.size
  steps stepDown? bound (steps stepUp? bound f)

end Focus

variable {α : Type} [DecidableEq α]

/-- Settles the chosen pieces of a script one after another; `done` lists the pieces dealt with,
nearest first. -/
def settleAll (chosen : Piece α → Bool) : Nat → Script α → Script α → Script α
  | 0, done, rest => done.reverse ++ rest
  | _ + 1, done, [] => done.reverse
  | fuel + 1, done, piece :: rest =>
    if chosen piece then
      let f := Focus.settle ⟨done, piece, rest⟩
      settleAll chosen fuel (f.current :: f.above) f.below
    else settleAll chosen fuel (piece :: done) rest

def isDelete : Piece α → Bool
  | .delete _ => true
  | _ => false

def isInsert : Piece α → Bool
  | .insert _ => true
  | _ => false

/-- Settles the deletions first and then the insertions. -/
def compact (script : Script α) : Script α :=
  let limit := (script.size + 1) * (script.size + 1)
  settleAll isInsert limit [] (settleAll isDelete limit [] script)

end Codemod.Diff
