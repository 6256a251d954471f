import Codemod.Decimal.Double

/-!
The shortest decimal text that reads back as a given double.

The numbers that round to a double form an interval, which includes its ends where the mantissa is
even. For one digit, two digits and so on the two neighbours of the double on that decimal grid
are tried; the first grid with a neighbour inside the interval gives the digits.
-/
namespace Codemod.Decimal

namespace Double

/-- The double and the ends of its rounding interval, as multiples of a quarter of the unit in the
last place. -/
def quarters (d : Double) : Nat × Nat × Nat :=
  let m := d.mantissa
  let lower := if m = Nat.pow 2 52 ∧ leastExponent < d.exponent then 4 * m - 1 else 4 * m - 2
  (lower, 4 * m, 4 * m + 2)

/-- The numerator and the denominator of a quarter of the unit in the last place. -/
def quarterUnit (d : Double) : Nat × Nat :=
  let e := d.exponent - 2
  if e < 0 then (1, Nat.pow 2 e.natAbs) else (Nat.pow 2 e.natAbs, 1)

/-- Decimal digits and the power of ten of the last one. -/
structure Digits where
  digits : Nat
  scale : Int
  deriving DecidableEq, Repr

/-- Both sides of a comparison between `a * 10 ^ scale` and a number of quarters. -/
def sides (d : Double) (a : Nat) (scale : Int) (quarters : Nat) : Nat × Nat :=
  let (num, den) := d.quarterUnit
  if scale < 0 then (a * den, quarters * num * Nat.pow 10 scale.natAbs)
  else (a * Nat.pow 10 scale.natAbs * den, quarters * num)

/-- A point of the grid lies in the rounding interval. -/
def covers (d : Double) (a : Nat) (scale : Int) : Bool :=
  let (lower, _, upper) := d.quarters
  let (x, l) := d.sides a scale lower
  let (_, u) := d.sides a scale upper
  if d.mantissa % 2 = 0 then l ≤ x && x ≤ u else l < x && x < u

/-- The neighbour below on a grid. -/
def below (d : Double) (scale : Int) : Nat :=
  let (num, den) := d.quarterUnit
  let top := 4 * d.mantissa * num
  if scale < 0 then top * Nat.pow 10 scale.natAbs / den else top / (den * Nat.pow 10 scale.natAbs)

/-- The better neighbour on a grid, if one of them is in the interval. -/
def onGrid? (d : Double) (scale : Int) : Option Nat :=
  let a := d.below scale
  match d.covers a scale, d.covers (a + 1) scale with
  | false, false => none
  | true, false => some a
  | false, true => some (a + 1)
  | true, true =>
    let (x, v) := d.sides a scale (4 * d.mantissa)
    let (y, _) := d.sides (a + 1) scale (4 * d.mantissa)
    if v - x < y - v then some a
    else if y - v < v - x then some (a + 1)
    else if a % 2 = 0 then some a else some (a + 1)

/-- Tries finer and finer grids. -/
def firstGrid (d : Double) : Nat → Int → Digits
  | 0, scale => ⟨d.below scale, scale⟩
  | fuel + 1, scale =>
    match d.onGrid? scale with
    | some 0 => firstGrid d fuel (scale - 1)
    | some a => ⟨a, scale⟩
    | none => firstGrid d fuel (scale - 1)

def Digits.strip : Nat → Digits → Digits
  | 0, x => x
  | fuel + 1, x =>
    if x.digits ≠ 0 ∧ x.digits % 10 = 0 then Digits.strip fuel ⟨x.digits / 10, x.scale + 1⟩ else x

/-- The shortest digits that read back as the double. -/
def shortest (d : Double) : Digits :=
  if d.mantissa = 0 then ⟨0, 0⟩
  else
    let size : Int := ((d.mantissa.log2 : Int) + d.exponent) * 30103 / 100000 + 2
    Digits.strip 400 (firstGrid d 24 size)

end Double

structure Layout where
  /-- The least power of ten of the first digit that is written without an exponent. -/
  leastPositional : Int
  /-- The first power of ten that is written with an exponent. -/
  firstScientific : Int

/-- The text of a number given by its digits: a point is always there unless an exponent is. -/
def Layout.text (layout : Layout) (negative : Bool) (x : Double.Digits) : String :=
  let digits := (Nat.repr x.digits).toList
  let lead : Int := (digits.length : Int) + x.scale - 1
  let zeros (n : Nat) : List Char := List.replicate n '0'
  let body : List Char :=
    if x.digits = 0 then ['0', '.', '0']
    else if layout.leastPositional ≤ lead && lead < layout.firstScientific then
      if 0 ≤ x.scale then digits ++ zeros x.scale.natAbs ++ ['.', '0']
      else if 0 ≤ lead then
        digits.take (lead.natAbs + 1) ++ ['.'] ++ digits.drop (lead.natAbs + 1)
      else ['0', '.'] ++ zeros (lead.natAbs - 1) ++ digits
    else
      let fraction := if digits.length = 1 then [] else '.' :: digits.drop 1
      let sign := if lead < 0 then '-' else '+'
      digits.take 1 ++ fraction ++ ['e', sign] ++ (Nat.repr lead.natAbs).toList
  String.ofList (if negative then '-' :: body else body)

end Codemod.Decimal
