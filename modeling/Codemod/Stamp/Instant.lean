import Codemod.Stamp.Calendar
import Codemod.Text.Blank
import Codemod.Text.Split

/-!
Points in time and their text.

An instant is written in universal time with as many digits of the second as it needs, in groups of
three. It is read with any offset, and loosely: blanks may stand between the parts, and a blank in
place of the `T`.
-/
namespace Codemod

/-- A point in time: seconds from the start of 1970, and billionths of a second. A leap second
counts as a second second of that length. -/
structure Instant where
  seconds : Int
  nanos : Nat
  deriving DecidableEq, Repr

namespace Instant

def nanosPerSecond : Nat := 1000000000

def padded (width n : Nat) : List Char :=
  let digits := Nat.toDigits 10 n
  List.replicate (width - digits.length) '0' ++ digits

/-- Years of four digits are written as they are and others with a sign. -/
def yearText (year : Int) : List Char :=
  if 0 ≤ year ∧ year ≤ 9999 then padded 4 year.toNat
  else (if year < 0 then '-' else '+') :: padded 4 year.natAbs

/-- The fraction of a second, in none, three, six or nine digits. -/
def fractionText (nanos : Nat) : List Char :=
  if nanos = 0 then []
  else if nanos % 1000000 = 0 then '.' :: padded 3 (nanos / 1000000)
  else if nanos % 1000 = 0 then '.' :: padded 6 (nanos / 1000)
  else '.' :: padded 9 nanos

def toText (instant : Instant) : String :=
  let date := Date.ofDays (instant.seconds / 86400)
  let time := (instant.seconds % 86400).toNat
  let leap := instant.nanos / nanosPerSecond
  String.ofList (
    yearText date.year ++ '-' :: padded 2 date.month ++ '-' :: padded 2 date.day
      ++ 'T' :: padded 2 (time / 3600) ++ ':' :: padded 2 (time / 60 % 60)
      ++ ':' :: padded 2 (time % 60 + leap)
      ++ fractionText (instant.nanos % nanosPerSecond) ++ ['Z'])

def digitsValue (digits : List Char) : Nat :=
  digits.foldl (fun n c => n * 10 + (c.toNat - 48)) 0

def takeNumber (width : Nat) (cs : List Char) : Option (Nat × List Char) :=
  match (cs.take width).takeWhile Char.isDigit with
  | [] => none
  | digits => some (digitsValue digits, cs.drop digits.length)

def takePart (low high : Nat) (cs : List Char) : Option (Nat × List Char) :=
  match takeNumber 2 (Text.trimStart cs) with
  | some (n, rest) => if low ≤ n ∧ n ≤ high then some (n, rest) else none
  | none => none

/-- A year: four digits, or any number behind a sign. -/
def takeYear (cs : List Char) : Option (Int × List Char) :=
  match Text.trimStart cs with
  | '-' :: rest => (takeNumber rest.length rest).map fun (n, more) => (-(n : Int), more)
  | '+' :: rest => (takeNumber rest.length rest).map fun (n, more) => ((n : Int), more)
  | rest => (takeNumber 4 rest).map fun (n, more) => ((n : Int), more)

def takeMark (mark : Char) (cs : List Char) : Option (List Char) :=
  match Text.trimStart cs with
  | c :: rest => if c = mark then some rest else none
  | [] => none

def takeSeparator : List Char → Option (List Char)
  | 'T' :: rest | 't' :: rest | ' ' :: rest => some rest
  | _ => none

/-- The billionths of a second. Digits behind the ninth are dropped. -/
def takeFraction : List Char → Option (Nat × List Char)
  | '.' :: rest =>
    (takeNumber 9 rest).map fun (n, more) =>
      (n * Nat.pow 10 (9 - (rest.length - more.length)), more.dropWhile Char.isDigit)
  | rest => some (0, rest)

def takePair : List Char → Option (Nat × List Char)
  | a :: b :: rest =>
    if a.isDigit && b.isDigit then some (digitsValue [a, b], rest) else none
  | _ => none

/-- The seconds by which an offset is ahead of universal time. -/
def takeOffset (cs : List Char) : Option (Int × List Char) :=
  let signed (sign : Int) (rest : List Char) : Option (Int × List Char) := do
    let (hours, rest) ← takePair rest
    let (minutes, rest) ← takePair (rest.dropWhile fun c => c == ':' || Text.isBlank c)
    if minutes < 60 ∧ hours < 24 then
      some (sign * ((hours : Int) * 3600 + (minutes : Int) * 60), rest)
    else none
  match cs with
  | 'Z' :: rest | 'z' :: rest => some (0, rest)
  | '+' :: rest => signed 1 rest
  | '-' :: rest | '\u2212' :: rest => signed (-1) rest
  | u :: t :: c :: rest =>
    if [u, t, c].map Char.toLower = ['u', 't', 'c'] then some (0, rest) else none
  | _ => none

/-- The years that have instants. -/
def isKnownYear (year : Int) : Bool := -262143 ≤ year && year ≤ 262142

def ofText? (s : String) : Option Instant := do
  let (year, rest) ← takeYear s.toList
  let (month, rest) ← takePart 1 12 (← takeMark '-' rest)
  let (day, rest) ← takePart 1 31 (← takeMark '-' rest)
  let (hour, rest) ← takePart 0 23 (← takeSeparator rest)
  let (minute, rest) ← takePart 0 59 (← takeMark ':' rest)
  let (second, rest) ← takePart 0 60 (← takeMark ':' rest)
  let (nanos, rest) ← takeFraction rest
  let (offset, rest) ← takeOffset (Text.trimStart rest)
  let date : Date := ⟨year, month, day⟩
  let leap := second / 60
  let seconds :=
    date.toDays * 86400 + (hour : Int) * 3600 + (minute : Int) * 60 + (second : Int)
      - (leap : Int) - offset
  if (Text.trimStart rest).isEmpty && date.isValid && isKnownYear year
      && isKnownYear (Date.ofDays (seconds / 86400)).year then
    some ⟨seconds, nanos + leap * nanosPerSecond⟩
  else none

end Instant

end Codemod
