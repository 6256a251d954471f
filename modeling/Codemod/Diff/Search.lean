import Codemod.Diff.Script

/-!
Finding a short edit script.

What two lists have in common at both ends stays. The rest is cut in two at a point of a shortest
path, and both halves are treated alike. The point comes from a search from both corners of the
edit graph at once: a diagonal `k` holds the pairs `(x, y)` of positions with `x - y = k`, and the
search keeps for each diagonal how far it got there.
-/
namespace Codemod.Diff

/-- How far the search got on each diagonal. -/
structure Frontier where
  reach : List (Int × Nat)

namespace Frontier

/-- The search starts next to the corner. -/
def start : Frontier := ⟨[(1, 0)]⟩

def get (f : Frontier) (k : Int) : Nat := (f.reach.lookup k).getD 0

def set (f : Frontier) (k : Int) (x : Nat) : Frontier := ⟨(k, x) :: f.reach⟩

/-- The position on a diagonal from which a step of the given depth goes on: the better of the
neighbouring diagonals, or the only one at the border. -/
def entry (f : Frontier) (depth k : Int) : Nat :=
  if k = -depth ∨ (k ≠ depth ∧ f.get (k - 1) < f.get (k + 1)) then f.get (k + 1)
  else f.get (k - 1) + 1

end Frontier

/-- The diagonals of a depth, from the upper to the lower border. -/
def diagonals (depth : Nat) : List Int :=
  (List.range (depth + 1)).map fun (i : Nat) => (depth : Int) - 2 * (i : Int)

/-- A point of the edit graph; the second position may lie outside. -/
abbrev Point := Nat × Int

/-- The search from one corner. -/
structure Side where
  /-- How far a diagonal leads from a position on it without a change. -/
  follow : Int → Nat → Nat
  /-- The search from the other corner has been at a position of a diagonal. -/
  meets : Int → Nat → Bool
  /-- The point to cut at, by the diagonal and the positions before and after following it. -/
  cut : Int → Nat → Nat → Point

/-- Goes through diagonals of a depth. Answers the frontier, and the point to cut at once the two
searches meet. -/
def Side.sweep (side : Side) (depth : Nat) : List Int → Frontier → Frontier × Option Point
  | [], f => (f, none)
  | k :: rest, f =>
    let origin := f.entry depth k
    let x := side.follow k origin
    let f := f.set k x
    if side.meets k x then (f, some (side.cut k origin x)) else side.sweep depth rest f

variable {α : Type} [DecidableEq α]

/-- The search from the front. The searches can meet on this side where the lengths differ by an
odd number. -/
def frontSide (as bs : List α) (depth : Nat) (back : Frontier) : Side :=
  let n := as.length
  let m := bs.length
  let delta : Int := (n : Int) - m
  { follow := fun k x =>
      let y : Int := x - k
      if x ≤ n ∧ 0 ≤ y ∧ y ≤ m then x + commonFront (as.drop x) (bs.drop y.toNat) else x
    meets := fun k x =>
      delta % 2 ≠ 0 ∧ (k - delta).natAbs + 1 ≤ depth ∧ n ≤ x + back.get (-(k - delta))
    cut := fun k origin _ => (origin, (origin : Int) - k) }

/-- The search from the end, with positions counted from there. -/
def backSide (as bs : List α) (depth : Nat) (forth : Frontier) : Side :=
  let n := as.length
  let m := bs.length
  let delta : Int := (n : Int) - m
  { follow := fun k x =>
      let y : Int := x - k
      if x < n ∧ 0 ≤ y ∧ y < m then x + commonBack (as.take (n - x)) (bs.take (m - y.toNat))
      else x
    meets := fun k x =>
      delta % 2 = 0 ∧ (k - delta).natAbs ≤ depth ∧ n ≤ x + forth.get (-(k - delta))
    cut := fun k _ x => (n - x, (m : Int) - ((x : Int) - k)) }

/-- Searches from both corners, depth by depth; the fuel bounds the depth. -/
def search (as bs : List α) : Nat → Nat → Frontier → Frontier → Option Point
  | 0, _, _, _ => none
  | fuel + 1, depth, forth, back =>
    match (frontSide as bs depth back).sweep depth (diagonals depth) forth with
    | (_, some point) => some point
    | (forth, none) =>
      match (backSide as bs depth forth).sweep depth (diagonals depth) back with
      | (_, some point) => some point
      | (back, none) => search as bs fuel (depth + 1) forth back

/-- The point at which a shortest path is cut. -/
def middle (as bs : List α) : Nat × Nat :=
  let bound := (as.length + bs.length + 1) / 2 + 1
  match search as bs bound 0 Frontier.start Frontier.start with
  | some (x, y) => (x, y.toNat)
  | none => (as.length, 0)

/-- A short script from one list to the other. The fuel bounds the number of cuts in a row. -/
def shortScript : Nat → List α → List α → Script α
  | 0, as, bs => unlessEmpty (.delete as) ++ unlessEmpty (.insert bs)
  | fuel + 1, as, bs =>
    let front := commonFront as bs
    let as' := as.drop front
    let bs' := bs.drop front
    let back := commonBack as' bs'
    let inner := as'.take (as'.length - back)
    let inner' := bs'.take (bs'.length - back)
    let between : Script α :=
      if inner.isEmpty || inner'.isEmpty then
        unlessEmpty (.delete inner) ++ unlessEmpty (.insert inner')
      else
        let (x, y) := middle inner inner'
        shortScript fuel (inner.take x) (inner'.take y)
          ++ shortScript fuel (inner.drop x) (inner'.drop y)
    unlessEmpty (.keep (as.take front)) ++ between
      ++ unlessEmpty (.keep (as'.drop (as'.length - back)))

end Codemod.Diff
