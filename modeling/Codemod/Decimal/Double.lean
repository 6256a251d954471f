/-!
Double precision numbers as exact data.

A double is a sign, a mantissa and a power of two. Products and quotients are formed exactly over
the natural numbers and rounded once, to the nearest double and in a tie to an even mantissa.
-/
namespace Codemod.Decimal

/-- A finite double: `mantissa * 2 ^ exponent`, perhaps negated. -/
structure Double where
  negative : Bool
  mantissa : Nat
  exponent : Int
  deriving DecidableEq, Repr, Inhabited

namespace Double

def leastExponent : Int := -1074

def greatestExponent : Int := 971

def zero : Double := ⟨false, 0, 0⟩

/-- The quotient rounded to a whole number, a tie to the even one. -/
def roundDiv (num den : Nat) : Nat :=
  let q := num / den
  let r := num % den
  if 2 * r < den then q
  else if den < 2 * r then q + 1
  else if q % 2 = 0 then q else q + 1

def roundScaled (num den : Nat) (exponent : Int) : Nat :=
  if exponent < 0 then roundDiv (num * Nat.pow 2 exponent.natAbs) den
  else roundDiv num (den * Nat.pow 2 exponent.natAbs)

/-- The double nearest to a positive fraction; none where it would be too large. -/
def ofFraction? (num den : Nat) : Option Double :=
  if num = 0 then some zero
  else
    let guess : Int := (num.log2 : Int) - den.log2 - 52
    let small :=
      if guess < 0 then num * Nat.pow 2 guess.natAbs < den * Nat.pow 2 52
      else num < den * Nat.pow 2 guess.natAbs * Nat.pow 2 52
    let exponent := max (if small then guess - 1 else guess) leastExponent
    let m := roundScaled num den exponent
    let (m, exponent) := if m = Nat.pow 2 53 then (Nat.pow 2 52, exponent + 1) else (m, exponent)
    if m = 0 then some zero
    else if greatestExponent < exponent then none
    else some ⟨false, m, exponent⟩

def ofNat (n : Nat) : Double := (ofFraction? n 1).getD zero

/-- The double nearest to a power of ten. -/
def powerOfTen (n : Nat) : Double := ofNat (Nat.pow 10 n)

/-- The rounded product of two doubles without their signs. -/
def mul? (a b : Double) : Option Double :=
  let e := a.exponent + b.exponent
  if e < 0 then ofFraction? (a.mantissa * b.mantissa) (Nat.pow 2 e.natAbs)
  else ofFraction? (a.mantissa * b.mantissa * Nat.pow 2 e.natAbs) 1

def div? (a b : Double) : Option Double :=
  let e := a.exponent - b.exponent
  if e < 0 then ofFraction? a.mantissa (b.mantissa * Nat.pow 2 e.natAbs)
  else ofFraction? (a.mantissa * Nat.pow 2 e.natAbs) b.mantissa

/-- A whole number scaled by a power of ten: the number is rounded first, then the power is, then
their product or quotient; none where the result is too large. A power beyond the table of exact
range is worked off in steps of `10 ^ 308`. -/
def ofScaled? (digits : Nat) (scale : Int) : Option Double :=
  steps (scale.natAbs / 308 + 1) (ofNat digits) scale
where
  /-- Works off the power of ten. -/
  steps : Nat → Double → Int → Option Double
    | 0, d, _ => some d
    | fuel + 1, d, scale =>
      if scale.natAbs ≤ 308 then
        if 0 ≤ scale then mul? d (powerOfTen scale.natAbs)
        else div? d (powerOfTen scale.natAbs)
      else if d.mantissa = 0 then some d
      else if 0 ≤ scale then none
      else
        match div? d (powerOfTen 308) with
        | none => none
        | some smaller => steps fuel smaller (scale + 308)

end Double

end Codemod.Decimal
